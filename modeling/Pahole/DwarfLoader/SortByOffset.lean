import Pahole.Support.ExchangeSort

/-!
# Members by offset

For a language that reorders the members of its types, `type__sort_by_offset` sorts the
list of what a type has by the offsets of the data members.  Other tags are on the list
as well.  A data member is compared with whatever is next to it, which is taken for a
member.
-/

namespace Pahole

open ExchangeSort

/-- A tag on the list of a type.  `byteOffset` is what is found where a member has it. -/
structure NamespaceTag where
  isDataMember : Bool
  name : Option String
  byteOffset : ℕ
  deriving DecidableEq

/-- `type__sort_by_offset`: the list, and the tags whose `byte_offset` is read.  There
are no more exchanges than pairs of tags. -/
def typeSortByOffset (tags : List NamespaceTag) : Option (List NamespaceTag × List NamespaceTag) :=
  run NamespaceTag.isDataMember NamespaceTag.byteOffset (tags.length * tags.length + 1) tags

/-- The result is a permutation of the tags in which the data members are sorted by offset and
stable, all other tags keep their places, and only data members have been compared. -/
structure SortedByOffset (tags result reads : List NamespaceTag) : Prop where
  perm : result.Perm tags
  sorted : (result.filter NamespaceTag.isDataMember).Pairwise fun a b => a.byteOffset ≤ b.byteOffset
  stable : ∀ offset, result.filter (fun t => t.isDataMember && t.byteOffset = offset) =
    tags.filter fun t => t.isDataMember && t.byteOffset = offset
  others : ∀ (i : ℕ) (t : NamespaceTag), t.isDataMember = false →
    (result[i]? = some t ↔ tags[i]? = some t)
  reads : ∀ t ∈ reads, t.isDataMember = true

section SortByOffset

variable {tags result reads : List NamespaceTag}

theorem typeSortByOffset_isSome (tags : List NamespaceTag) :
    ∃ result reads, typeSortByOffset tags = some (result, reads) :=
  run_isSome (Nat.lt_succ_of_le (inversions_le tags))

/-- If the sort has compared data members only, it has sorted them and kept the other tags in
place, and the data members were behind all other tags. -/
theorem typeSortByOffset_spec (h : typeSortByOffset tags = some (result, reads))
    (hreads : ∀ t ∈ reads, t.isDataMember = true) :
    SortedByOffset tags result reads ∧
      tags.Pairwise fun a b => a.isDataMember = true → b.isDataMember = true := by
  have hsorted := (run_spec h).2.sorted hreads
  have hflags : result.map NamespaceTag.isDataMember = tags.map NamespaceTag.isDataMember :=
    run_keeps (P := fun ys => ys.map NamespaceTag.isDataMember = tags.map _) h rfl
      fun _ _ hstep hkept => (hstep.flags hreads).trans hkept
  have hothers : (result.map fun t => if t.isDataMember then none else some t) =
      tags.map fun t => if t.isDataMember then none else some t :=
    run_keeps (P := fun ys => (ys.map fun t => if t.isDataMember then none else some t) =
        tags.map fun t => if t.isDataMember then none else some t) h rfl
      fun _ _ hstep hkept => (hstep.others hreads).trans hkept
  constructor
  · constructor
    · exact run_keeps (P := fun ys => ys.Perm tags) h (List.Perm.refl _)
        fun _ _ hstep hkept => hstep.perm.trans hkept
    · have hmembers := List.pairwise_filter.mpr (hsorted.imp fun hab ha _ => hab ha)
      exact hmembers.imp fun hab => hab.2
    · intro offset
      exact run_keeps (P := fun ys => ys.filter (fun t => t.isDataMember && t.byteOffset = offset) =
          tags.filter fun t => t.isDataMember && t.byteOffset = offset) h rfl
        fun _ _ hstep hkept => (hstep.stable offset).trans hkept
    · exact fun i t ht => getElem?_of_others ht hothers
    · exact hreads
  · have hlast : result.Pairwise fun a b => a.isDataMember = true → b.isDataMember = true :=
      hsorted.imp fun hab ha => (hab ha).1
    exact (movableLast_congr hflags).mp hlast

/-- The sort ends, sorts the data members, keeps all other tags in place and compares data
members only, if and only if all other tags are in front of the data members. -/
theorem typeSortByOffset_exact_iff (tags : List NamespaceTag) :
    (∃ result reads, typeSortByOffset tags = some (result, reads) ∧
        SortedByOffset tags result reads) ↔
      tags.Pairwise fun a b => a.isDataMember = true → b.isDataMember = true := by
  constructor
  · rintro ⟨result, reads, h, hsorted⟩
    exact (typeSortByOffset_spec h hsorted.reads).2
  · intro hlast
    obtain ⟨result, reads, h⟩ := typeSortByOffset_isSome tags
    exact ⟨result, reads, h, (typeSortByOffset_spec h (run_reads hlast h)).1⟩

end SortByOffset

/-- A member at 8, a nested type with a 100 where a member has its offset, and a member
at 0. -/
def mixedTags : List NamespaceTag :=
  [⟨true, some "a", 8⟩, ⟨false, some "Nested", 100⟩, ⟨true, some "b", 0⟩]

/-- The members stay as they are, since the first one is compared with the nested type. -/
theorem typeSortByOffset_not_exact :
    ¬∃ result reads, typeSortByOffset mixedTags = some (result, reads) ∧
      SortedByOffset mixedTags result reads := by
  rintro ⟨result, reads, h, hsorted⟩
  have hrun : typeSortByOffset mixedTags =
      some (mixedTags, [⟨true, some "a", 8⟩, ⟨false, some "Nested", 100⟩]) := by decide
  rw [hrun] at h
  obtain ⟨rfl, rfl⟩ := Prod.mk.inj (Option.some.inj h)
  exact absurd hsorted.sorted (by decide)

end Pahole
