import Mathlib.Tactic
import Pahole.Support.Transition

/-!
# The array of function states

`btf_encoder__alloc_func_state` hands out the elements of an array that it makes longer
when the capacity is used up.  It raises the capacity before it asks for the memory, so
that after a request that failed the capacity is larger than the array.
-/

namespace Pahole

open Transition

/-- `struct btf_encoder_func_states`, with the elements that are allocated. -/
structure FuncStateArray (α : Type) where
  array : List α
  cnt : ℕ
  cap : ℕ

/-- The calls, and what their callers write to the states that they have got.  A `realloc`
that does not fail leaves something in the new elements. -/
inductive FuncStateCall (α : Type) where
  | alloc (realloc : Option (ℕ → α))
  | fill (state : ℕ) (contents : α)
  | drop (state : ℕ)

namespace FuncStateArray

variable {α : Type} [Zero α]

/-- The states before any call, with room for the functions of the ELF file. -/
def init (n : ℕ) : FuncStateArray α := ⟨List.replicate n 0, 0, n⟩

/-- Clear the next element and return it. -/
def take (states : FuncStateArray α) : FuncStateArray α × Option ℕ :=
  ({ states with array := states.array.set states.cnt 0, cnt := states.cnt + 1 },
    some states.cnt)

/-- A `realloc` for 64 elements more. -/
def grow (states : FuncStateArray α) (new : ℕ → α) : FuncStateArray α :=
  { states with
    array := states.array ++ (List.range (states.cap + 64 - states.array.length)).map new
    cap := states.cap + 64 }

/-- `btf_encoder__alloc_func_state`, undefined where the capacity, an `int`, overflows. -/
def allocFuncState (states : FuncStateArray α) (realloc : Option (ℕ → α)) :
    Option (FuncStateArray α × Option ℕ) :=
  if states.cap ≤ states.cnt then
    if states.cap + 64 < 2 ^ 31 then
      match realloc with
      | none => some ({ states with cap := states.cap + 64 }, none)
      | some new => some (states.grow new).take
    else none
  else some states.take

/-- `btf_encoder__drop_func_state` -/
def dropFuncState (states : FuncStateArray α) (state : ℕ) : FuncStateArray α :=
  { states with
    array := states.array.set state 0
    cnt := if 0 < states.cnt ∧ state = states.cnt - 1 then states.cnt - 1 else states.cnt }

/-- A call, with the state that it returns. -/
def call (states : FuncStateArray α) : FuncStateCall α → Option (FuncStateArray α × Option ℕ)
  | .alloc realloc => states.allocFuncState realloc
  | .fill state contents => some ({ states with array := states.array.set state contents }, none)
  | .drop state => some (states.dropFuncState state, none)

/-- The states after a call. -/
def next (states : FuncStateArray α) (c : FuncStateCall α) : FuncStateArray α :=
  ((states.call c).map Prod.fst).getD states

end FuncStateArray

/-- The state that a caller has to do with. -/
def FuncStateCall.state? {α : Type} : FuncStateCall α → Option ℕ
  | .alloc _ => none
  | .fill state _ => some state
  | .drop state => some state

namespace FuncStateArray

variable {α : Type} [Zero α]

/-- Callers write to and drop states that are in use. -/
def Uses (states : FuncStateArray α) (c : FuncStateCall α) : Prop :=
  ∀ state ∈ c.state?, state < states.cnt

instance (states : FuncStateArray α) (c : FuncStateCall α) : Decidable (states.Uses c) :=
  inferInstanceAs (Decidable (∀ state ∈ c.state?, state < states.cnt))

/-- A call leaves a count of allocated elements, returns a cleared one, and keeps the
other states. -/
structure Served (states : FuncStateArray α) (c : FuncStateCall α) (states' : FuncStateArray α)
    (result : Option ℕ) : Prop where
  count : states'.cnt ≤ states'.array.length
  returned : ∀ state, result = some state → states'.array[state]? = some 0
  kept : ∀ state < states.cnt, c.state? ≠ some state →
    states'.array[state]? = states.array[state]?

def Serves (states : FuncStateArray α) (c : FuncStateCall α) : Prop :=
  ∃ states' result, states.call c = some (states', result) ∧ states.Served c states' result

/-- A new state finds an element that is not in use, or a capacity that is the number of
elements and can be raised. -/
def HasRoom (states : FuncStateArray α) : FuncStateCall α → Prop
  | .alloc _ => states.cnt < states.array.length ∨
      (states.cap = states.array.length ∧ states.cap + 64 < 2 ^ 31)
  | _ => True

instance (states : FuncStateArray α) : DecidablePred states.HasRoom
  | .alloc _ => inferInstanceAs (Decidable (_ ∨ _))
  | .fill _ _ => inferInstanceAs (Decidable True)
  | .drop _ => inferInstanceAs (Decidable True)

/-- The elements in use are allocated, and the capacity covers those that are. -/
structure Covered (states : FuncStateArray α) : Prop where
  count : states.cnt ≤ states.array.length
  cap : states.array.length ≤ states.cap

theorem covered_init (n : ℕ) : (init n : FuncStateArray α).Covered where
  count := Nat.zero_le _
  cap := le_of_eq List.length_replicate

variable {states states' : FuncStateArray α} {c : FuncStateCall α} {result : Option ℕ}
  {realloc : Option (ℕ → α)} {new : ℕ → α}

/-! ## The effect of the calls -/

theorem call_alloc_of_lt (h : states.cnt < states.cap) :
    states.call (.alloc realloc) = some states.take :=
  if_neg (not_le.mpr h)

theorem call_alloc_failed (h : states.cap ≤ states.cnt) (hint : states.cap + 64 < 2 ^ 31) :
    states.call (.alloc none) = some ({ states with cap := states.cap + 64 }, none) := by
  rw [call, allocFuncState, if_pos h, if_pos hint]

theorem call_alloc_grow (h : states.cap ≤ states.cnt) (hint : states.cap + 64 < 2 ^ 31) :
    states.call (.alloc (some new)) = some (states.grow new).take := by
  rw [call, allocFuncState, if_pos h, if_pos hint]

theorem call_alloc_overflow (h : states.cap ≤ states.cnt) (hint : ¬states.cap + 64 < 2 ^ 31) :
    states.call (.alloc realloc) = none :=
  (if_pos h).trans (if_neg hint)

theorem next_eq (h : states.call c = some (states', result)) : states.next c = states' := by
  rw [next, h]
  rfl

omit [Zero α] in
theorem length_grow (h : states.Covered) : (states.grow new).array.length = states.cap + 64 := by
  have hcap := h.cap
  rw [grow, List.length_append, List.length_map, List.length_range]
  omega

theorem length_take : states.take.1.array.length = states.array.length := List.length_set

/-- A call that needs no more room takes the next element of the array. -/
theorem served_take (h : states.cnt < states.array.length) :
    states.Served (.alloc realloc) states.take.1 states.take.2 where
  count := by
    rw [length_take]
    exact h
  returned := by
    rintro state hstate
    obtain rfl := Option.some.inj hstate
    exact List.getElem?_set_self h
  kept state hstate _ := List.getElem?_set_ne hstate.ne'

/-- A call served by the grown array is served by the array. -/
theorem Served.of_grow (h : states.Covered) (hserved : (states.grow new).Served c states' result) :
    states.Served c states' result where
  count := hserved.count
  returned := hserved.returned
  kept state hstate hother := by
    rw [hserved.kept state hstate hother]
    exact List.getElem?_append_left (hstate.trans_le h.count)

/-- A request that fails leaves the states as they are. -/
theorem served_failed (h : states.Covered) (cap : ℕ) :
    states.Served (.alloc realloc) { states with cap := cap } none where
  count := h.count
  returned := by
    rintro state ⟨⟩
  kept state _ _ := rfl

theorem served_fill (h : states.Covered) (state : ℕ) (contents : α) :
    states.Served (.fill state contents)
      { states with array := states.array.set state contents } none where
  count := by
    rw [List.length_set]
    exact h.count
  returned := by
    rintro state ⟨⟩
  kept other _ hother := List.getElem?_set_ne fun heq => hother (congrArg some heq)

theorem cnt_dropFuncState_le (state : ℕ) : (states.dropFuncState state).cnt ≤ states.cnt := by
  rw [dropFuncState]
  dsimp only
  split
  · exact Nat.sub_le _ _
  · exact le_rfl

theorem served_drop (h : states.Covered) (state : ℕ) :
    states.Served (.drop state) (states.dropFuncState state) none where
  count := by
    apply (cnt_dropFuncState_le state).trans
    rw [dropFuncState, List.length_set]
    exact h.count
  returned := by
    rintro state ⟨⟩
  kept other _ hother := List.getElem?_set_ne fun heq => hother (congrArg some heq)

/-! ## One call -/

theorem serves_alloc_of_hasRoom (h : states.Covered) (hroom : states.HasRoom (.alloc realloc)) :
    states.Serves (.alloc realloc) := by
  rcases Nat.lt_or_ge states.cnt states.cap with hlt | hge
  · have hfree : states.cnt < states.array.length := by
      rcases hroom with hfree | ⟨hcap, -⟩
      · exact hfree
      · exact hcap ▸ hlt
    exact ⟨_, _, call_alloc_of_lt hlt, served_take hfree⟩
  · have hfull : ¬states.cnt < states.array.length := not_lt.mpr (h.cap.trans hge)
    obtain ⟨-, hint⟩ := hroom.resolve_left hfull
    cases realloc with
    | none => exact ⟨_, _, call_alloc_failed hge hint, served_failed h _⟩
    | some new =>
        have hfree : (states.grow new).cnt < (states.grow new).array.length := by
          rw [length_grow h]
          exact (h.count.trans h.cap).trans_lt (by omega)
        exact ⟨_, _, call_alloc_grow hge hint, Served.of_grow h (served_take hfree)⟩

theorem hasRoom_of_serves_alloc (h : states.Covered)
    (hserves : states.Serves (.alloc realloc)) : states.HasRoom (.alloc realloc) := by
  obtain ⟨states', result, hcall, hserved⟩ := hserves
  by_contra hnone
  obtain ⟨hfull, hcap⟩ := not_or.mp hnone
  have hcnt : states.cnt = states.array.length := le_antisymm h.count (not_lt.mp hfull)
  rcases Nat.lt_or_ge states.cnt states.cap with hlt | hge
  · rw [call_alloc_of_lt hlt] at hcall
    obtain ⟨rfl, rfl⟩ := Prod.mk.inj (Option.some.inj hcall)
    have hcount : states.cnt + 1 ≤ states.take.1.array.length := hserved.count
    rw [length_take, ← hcnt] at hcount
    exact absurd hcount (Nat.not_succ_le_self _)
  · have hall : states.cap = states.array.length := le_antisymm (hge.trans hcnt.le) h.cap
    have hint : ¬states.cap + 64 < 2 ^ 31 := fun hint => hcap ⟨hall, hint⟩
    rw [call_alloc_overflow hge hint] at hcall
    cases hcall

/-- In a covered array a call is served if and only if it has room. -/
theorem serves_iff (h : states.Covered) : states.Serves c ↔ states.HasRoom c := by
  cases c with
  | alloc realloc => exact ⟨hasRoom_of_serves_alloc h, serves_alloc_of_hasRoom h⟩
  | fill state contents =>
      exact ⟨fun _ => trivial, fun _ => ⟨_, _, rfl, served_fill h state contents⟩⟩
  | drop state => exact ⟨fun _ => trivial, fun _ => ⟨_, _, rfl, served_drop h state⟩⟩

/-- A call for which there is room leaves a capacity that covers the elements. -/
theorem covered_next (h : states.Covered) (hroom : states.HasRoom c) : (states.next c).Covered := by
  obtain ⟨states', result, hcall, hserved⟩ := (serves_iff h).mpr hroom
  rw [next_eq hcall]
  refine ⟨hserved.count, ?_⟩
  have hcap := h.cap
  cases c with
  | alloc realloc =>
      rcases Nat.lt_or_ge states.cnt states.cap with hlt | hge
      · rw [call_alloc_of_lt hlt] at hcall
        obtain ⟨rfl, -⟩ := Prod.mk.inj (Option.some.inj hcall)
        rw [List.length_set]
        exact hcap
      · by_cases hint : states.cap + 64 < 2 ^ 31
        · cases realloc with
          | none =>
              rw [call_alloc_failed hge hint] at hcall
              obtain ⟨rfl, -⟩ := Prod.mk.inj (Option.some.inj hcall)
              exact hcap.trans (Nat.le_add_right _ _)
          | some new =>
              rw [call_alloc_grow hge hint] at hcall
              obtain ⟨rfl, -⟩ := Prod.mk.inj (Option.some.inj hcall)
              rw [List.length_set, length_grow h]
              exact le_rfl
        · rw [call_alloc_overflow hge hint] at hcall
          cases hcall
  | fill state contents =>
      obtain ⟨rfl, -⟩ := Prod.mk.inj (Option.some.inj hcall)
      rw [List.length_set]
      exact hcap
  | drop state =>
      obtain ⟨rfl, -⟩ := Prod.mk.inj (Option.some.inj hcall)
      rw [dropFuncState, List.length_set]
      exact hcap

/-! ## All calls -/

/-- All calls of a sequence are served if and only if each new state finds an unused element or
a capacity that can be raised. -/
theorem allServed_iff (n : ℕ) (calls : List (FuncStateCall α))
    (huses : Along next Uses (init n) calls) :
    Along next Serves (init n) calls ↔ Along next HasRoom (init n) calls :=
  along_iff (covered_init n) huses (fun _ _ h _ => serves_iff h) fun _ _ h _ => covered_next h

/-- States that are allocated, written to and dropped, with one request that fails. -/
theorem allServed_dropped : Along next Serves (init 1)
    [.alloc none, .fill 0 7, .alloc none, .drop 0, .alloc (some fun i => i)] :=
  (allServed_iff 1 [.alloc none, .fill 0 7, .alloc none, .drop 0, .alloc (some fun i => i)]
    (by decide)).mpr (by decide)

/-- After a request that failed a state is returned that is not allocated. -/
theorem not_allServed_failed :
    Along next Uses (init 0 : FuncStateArray ℕ) [.alloc none, .alloc none] ∧
      ¬Along next Serves (init 0 : FuncStateArray ℕ) [.alloc none, .alloc none] := by
  refine ⟨by decide, ?_⟩
  rintro ⟨-, hsecond, -⟩
  obtain ⟨states', result, hcall, hserved⟩ := hsecond
  obtain ⟨rfl, rfl⟩ := Prod.mk.inj (Option.some.inj hcall)
  exact absurd hserved.count (by decide)

end FuncStateArray

end Pahole
