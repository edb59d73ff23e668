import Pahole.Support.SearchTree

/-!
# Lookups in trees that have been rebalanced

A value is linked behind the values whose key is not greater, and the tree may then be
given any shape with the same values from left to right.  A lookup that is told on which
side to go on finds a value in every shape if it is sent towards it by all others, and
misses it in some shape if a later value sends it away.
-/

namespace SearchTree

variable {α : Type*}

/-! ## Descending -/

/-- Descends to a value that `side` is content with: `.lt` is to the left. -/
def lookup (side : α → Ordering) : SearchTree α → Option α
  | .leaf => none
  | .node _ left value right =>
      match side value with
      | .lt => left.lookup side
      | .gt => right.lookup side
      | .eq => some value

section Lookup

variable {side : α → Ordering} {t : SearchTree α} {x : α} {before after : List α}

theorem lookup_sound (h : t.lookup side = some x) : x ∈ t.inorder ∧ side x = .eq := by
  induction t with
  | leaf => simp [lookup] at h
  | node red left value right ihl ihr =>
      rw [lookup] at h
      rw [inorder, List.mem_append, List.mem_cons]
      cases hside : side value with
      | lt =>
          rw [hside] at h
          exact ⟨Or.inl (ihl h).1, (ihl h).2⟩
      | gt =>
          rw [hside] at h
          exact ⟨Or.inr (Or.inr (ihr h).1), (ihr h).2⟩
      | eq =>
          rw [hside] at h
          obtain rfl := Option.some.inj h
          exact ⟨Or.inr (Or.inl rfl), hside⟩

/-- A value is found if the values before it send to the right, and those after it to
the left. -/
theorem lookup_complete (hinorder : t.inorder = before ++ x :: after) (hx : side x = .eq)
    (hbefore : ∀ v ∈ before, side v = .gt) (hafter : ∀ v ∈ after, side v = .lt) :
    t.lookup side = some x := by
  induction t generalizing before after with
  | leaf => simp [inorder] at hinorder
  | node red left value right ihl ihr =>
      rw [inorder, List.append_eq_append_iff] at hinorder
      rw [lookup]
      rcases hinorder with ⟨mid, hleft, hmid⟩ | ⟨mid, hright, hmid⟩
      · cases mid with
        | nil =>
            rw [List.nil_append, List.cons.injEq] at hmid
            rw [hmid.1, hx]
        | cons y mid =>
            rw [List.cons_append, List.cons.injEq] at hmid
            obtain ⟨rfl, hright⟩ := hmid
            have hsent : ∀ v ∈ value :: mid, side v = .gt := fun v hv =>
              hbefore v (by rw [hleft]; exact List.mem_append_right _ hv)
            obtain ⟨hvalue, hmid⟩ := List.forall_mem_cons.mp hsent
            rw [hvalue]
            exact ihr hright hmid hafter
      · cases mid with
        | nil =>
            rw [List.nil_append, List.cons.injEq] at hmid
            rw [← hmid.1, hx]
        | cons y mid =>
            rw [List.cons_append, List.cons.injEq] at hmid
            obtain ⟨rfl, rfl⟩ := hmid
            obtain ⟨hmid, hrest⟩ := List.forall_mem_append.mp hafter
            rw [hrest value List.mem_cons_self]
            exact ihl hright hbefore hmid

/-- The tree in which every value is above those before it. -/
def leftSpine : List α → SearchTree α :=
  List.foldl (fun t v => .node false t v .leaf) .leaf

theorem leftSpine_concat (values : List α) (v : α) :
    leftSpine (values ++ [v]) = .node false (leftSpine values) v .leaf := by
  simp [leftSpine]

theorem inorder_leftSpine (values : List α) : (leftSpine values).inorder = values := by
  induction values using List.reverseRecOn with
  | nil => rfl
  | append_singleton values v ih => rw [leftSpine_concat, inorder, ih, inorder]

/-- Where every value is above those before it, a later value that sends to the right
hides what is before it. -/
theorem lookup_leftSpine_eq_none (hafter : ∀ v ∈ after, side v ≠ .eq)
    (hgt : ∃ v ∈ after, side v = .gt) : (leftSpine (before ++ after)).lookup side = none := by
  induction after using List.reverseRecOn with
  | nil => exact absurd hgt (by simp)
  | append_singleton after v ih =>
      rw [← List.append_assoc, leftSpine_concat, lookup]
      cases hside : side v with
      | lt =>
          refine ih (fun w hw => hafter w (List.mem_append_left _ hw)) ?_
          obtain ⟨w, hw, hgt⟩ := hgt
          rcases List.mem_append.mp hw with hw | hw
          · exact ⟨w, hw, hgt⟩
          · obtain rfl := List.mem_singleton.mp hw
            rw [hside] at hgt
            exact absurd hgt (by simp)
      | gt => rfl
      | eq => exact absurd hside (hafter v (by simp))

end Lookup

/-! ## Linking -/

section Place

variable {κ : Type*} [LinearOrder κ] (key : α → κ)

/-- Links a value behind the values that are not greater. -/
def place (x : α) : SearchTree α → SearchTree α
  | .leaf => .node true .leaf x .leaf
  | .node red left value right =>
      if key x < key value then .node red (left.place x) value right
      else .node red left value (right.place x)

variable {key} {x : α} {t t' : SearchTree α} {xs pre post : List α}

/-- No key is below one before it. -/
def KeySorted (key : α → κ) (values : List α) : Prop :=
  values.Pairwise fun a b => key a ≤ key b

theorem inorder_place (hsorted : KeySorted key t.inorder) :
    ∃ before after, t.inorder = before ++ after ∧
      (t.place key x).inorder = before ++ x :: after ∧
      (∀ v ∈ before, key v ≤ key x) ∧ ∀ v ∈ after, key x < key v := by
  induction t with
  | leaf => exact ⟨[], [], rfl, rfl, by simp, by simp⟩
  | node red left value right ihl ihr =>
      rw [inorder, KeySorted, List.pairwise_append, List.pairwise_cons] at hsorted
      obtain ⟨hleft, ⟨hvalue, hright⟩, hcross⟩ := hsorted
      rw [place]
      by_cases hlt : key x < key value
      · obtain ⟨before, after, hin, hplaced, hle, hgt⟩ := ihl hleft
        refine ⟨before, after ++ value :: right.inorder, ?_, ?_, hle, ?_⟩
        · rw [inorder, hin, List.append_assoc]
        · rw [if_pos hlt, inorder, hplaced, List.append_assoc, List.cons_append]
        · intro v hv
          rcases List.mem_append.mp hv with hv | hv
          · exact hgt v hv
          · rcases List.mem_cons.mp hv with rfl | hv
            · exact hlt
            · exact hlt.trans_le (hvalue v hv)
      · obtain ⟨before, after, hin, hplaced, hle, hgt⟩ := ihr hright
        refine ⟨left.inorder ++ value :: before, after, ?_, ?_, ?_, hgt⟩
        · rw [inorder, hin, List.append_assoc, List.cons_append]
        · rw [if_neg hlt, inorder, hplaced, List.append_assoc, List.cons_append]
        · intro v hv
          rcases List.mem_append.mp hv with hv | hv
          · exact (hcross v hv value List.mem_cons_self).trans (not_lt.mp hlt)
          · rcases List.mem_cons.mp hv with rfl | hv
            · exact not_lt.mp hlt
            · exact hle v hv

/-- A tree built by linking the values one after the other, where each step may be followed by
any rebalancing that keeps the order from left to right. -/
inductive Built (key : α → κ) : List α → SearchTree α → Prop
  | leaf : Built key [] .leaf
  | place {xs : List α} {x : α} {t t' : SearchTree α} (h : Built key xs t) (hsame : t'.inorder = (t.place key x).inorder) :
      Built key (xs ++ [x]) t'

theorem Built.keySorted_perm (h : Built key xs t) :
    KeySorted key t.inorder ∧ t.inorder.Perm xs := by
  induction h with
  | leaf => exact ⟨List.Pairwise.nil, List.Perm.refl _⟩
  | @place xs x t t' h hsame ih =>
      obtain ⟨hsorted, hperm⟩ := ih
      obtain ⟨before, after, hin, hplaced, hle, hgt⟩ := inorder_place (x := x) hsorted
      rw [hin] at hsorted hperm
      obtain ⟨hbefore, hafter, hcross⟩ := List.pairwise_append.mp hsorted
      rw [hsame, hplaced]
      constructor
      · refine List.pairwise_append.mpr ⟨hbefore, List.pairwise_cons.mpr
          ⟨fun v hv => (hgt v hv).le, hafter⟩, fun v hv => ?_⟩
        exact List.forall_mem_cons.mpr ⟨hle v hv, hcross v hv⟩
      · calc (before ++ x :: after).Perm (x :: (before ++ after)) := List.perm_middle
          _ |>.Perm (x :: xs) := hperm.cons x
          _ |>.Perm (xs ++ [x]) := (List.perm_append_singleton x xs).symm

/-- A tree may be rebalanced into any other with the same values from left to right. -/
theorem Built.reshape (h : Built key xs t) (hne : xs ≠ []) (hsame : t'.inorder = t.inorder) :
    Built key xs t' := by
  cases h with
  | leaf => exact absurd rfl hne
  | place h hplaced => exact .place h (hsame.trans hplaced)

variable (key) in
theorem exists_built (xs : List α) : ∃ t, Built key xs t := by
  induction xs using List.reverseRecOn with
  | nil => exact ⟨.leaf, .leaf⟩
  | append_singleton xs x ih =>
      obtain ⟨t, h⟩ := ih
      exact ⟨t.place key x, .place h rfl⟩

/-- Before a value are some whose keys are not greater, and after it are those with a
greater key and those with the same key that were linked later. -/
theorem Built.split (h : Built key (pre ++ x :: post) t) :
    ∃ before after, t.inorder = before ++ x :: after ∧
      (∀ v ∈ before, key v ≤ key x) ∧
      ∀ v, v ∈ after ↔ (v ∈ pre ∧ key x < key v) ∨ (v ∈ post ∧ key x ≤ key v) := by
  generalize hxs : pre ++ x :: post = xs at h
  induction h generalizing post with
  | leaf => exact absurd hxs (by simp)
  | @place xs y t t' h hsame ih =>
      obtain ⟨hsorted, hperm⟩ := h.keySorted_perm
      obtain ⟨b, a, hin, hplaced, hle, hgt⟩ := inorder_place (x := y) hsorted
      rw [hsame, hplaced]
      rcases List.eq_nil_or_concat post with rfl | ⟨post, z, rfl⟩
      · obtain ⟨rfl, heq⟩ := List.append_inj' hxs rfl
        obtain rfl := List.singleton_inj.mp heq
        refine ⟨b, a, rfl, hle, fun v => ?_⟩
        have hmem : v ∈ pre ↔ v ∈ b ∨ v ∈ a := by
          rw [← hperm.mem_iff, hin, List.mem_append]
        constructor
        · exact fun hv => Or.inl ⟨hmem.mpr (Or.inr hv), hgt v hv⟩
        · rintro (⟨hv, hlt⟩ | ⟨hv, -⟩)
          · exact (hmem.mp hv).resolve_left fun hv => absurd (hle v hv) (not_le.mpr hlt)
          · exact absurd hv (by simp)
      · rw [List.concat_eq_append, ← List.cons_append, ← List.append_assoc] at hxs
        obtain ⟨hinit, heq⟩ := List.append_inj' hxs rfl
        obtain rfl := List.singleton_inj.mp heq
        obtain ⟨before, after, hsplit, hbefore, hafter⟩ := ih hinit
        simp only [List.concat_eq_append, List.mem_append, List.mem_singleton]
        rw [hin, List.append_eq_append_iff] at hsplit
        have hfirst : ∀ c, before = b ++ c → a = c ++ x :: after →
            ∃ before after, b ++ z :: a = before ++ x :: after ∧ (∀ v ∈ before, key v ≤ key x) ∧
              ∀ v, v ∈ after ↔ (v ∈ pre ∧ key x < key v) ∨ ((v ∈ post ∨ v = z) ∧ key x ≤ key v) := by
          rintro c rfl rfl
          have hzx : key z < key x := hgt x (by simp)
          obtain ⟨hb, hc⟩ := List.forall_mem_append.mp hbefore
          refine ⟨b ++ z :: c, after, by simp, ?_, fun v => ?_⟩
          · exact List.forall_mem_append.mpr ⟨hb, List.forall_mem_cons.mpr ⟨hzx.le, hc⟩⟩
          · rw [hafter]
            constructor
            · rintro (hv | ⟨hv, hxv⟩)
              · exact Or.inl hv
              · exact Or.inr ⟨Or.inl hv, hxv⟩
            · rintro (hv | ⟨hv | rfl, hxv⟩)
              · exact Or.inl hv
              · exact Or.inr ⟨hv, hxv⟩
              · exact absurd hxv (not_le.mpr hzx)
        rcases hsplit with ⟨c, hc, ha⟩ | ⟨c, hb, hc⟩
        · exact hfirst c hc ha
        · cases c with
          | nil => exact hfirst [] (by simp_all) (by simp_all)
          | cons y c =>
              rw [List.cons_append, List.cons.injEq] at hc
              obtain ⟨rfl, rfl⟩ := hc
              have hxz : key x ≤ key z := hle x (by rw [hb]; simp)
              refine ⟨before, c ++ z :: a, by simp [hb], hbefore, fun v => ?_⟩
              have hmem := hafter v
              rw [List.mem_append] at hmem
              rw [List.mem_append, List.mem_cons]
              constructor
              · rintro (hv | rfl | hv)
                · rcases hmem.mp (Or.inl hv) with hv | ⟨hv, hle⟩
                  · exact Or.inl hv
                  · exact Or.inr ⟨Or.inl hv, hle⟩
                · exact Or.inr ⟨Or.inr rfl, hxz⟩
                · rcases hmem.mp (Or.inr hv) with hv | ⟨hv, hle⟩
                  · exact Or.inl hv
                  · exact Or.inr ⟨Or.inl hv, hle⟩
              · rintro (hv | ⟨hv | rfl, hle⟩)
                · exact (hmem.mpr (Or.inl hv)).imp_right Or.inr
                · exact (hmem.mpr (Or.inr ⟨hv, hle⟩)).imp_right Or.inr
                · exact Or.inr (Or.inl rfl)

end Place

end SearchTree
