import Pahole.BtfEncoder.State

/-!
# Matching functions by their types

`types__match` and `funcs__match` compare two saved functions by the BTF types they
use, up to `const` and up to what lies behind a name.
-/

namespace Pahole

open FallibleTable

/-- `btf_kind` -/
inductive BtfKind where
  | int
  | float
  | ptr
  | typedef
  | volatile
  | const
  | restrict
  | func
  | typeTag
  | struct
  | union
  | array
  | enum
  | enum64
  | funcProto
  | var
  | datasec
  | declTag
  | locParam
  | locProto
  | locsec
  deriving DecidableEq, Repr

namespace BtfType

/-- The kind of a type that is a reference. -/
def refKind : RefKind → BtfKind
  | .ptr => .ptr
  | .typedef => .typedef
  | .volatile => .volatile
  | .const => .const
  | .restrict => .restrict
  | .func => .func
  | .typeTag => .typeTag
  | .typeAttr => .typeTag

/-- `fwd__kind` -/
def fwdKind : BtfType → BtfKind
  | .int .. => .int
  | .float .. => .float
  | .ref kind _ _ => refKind kind
  | .fwd _ isUnion => if isUnion then .union else .struct
  | .array .. => .array
  | .composite isUnion .. => if isUnion then .union else .struct
  | .enum .. => .enum
  | .enum64 .. => .enum64
  | .funcProto .. => .funcProto
  | .var .. => .var
  | .datasec .. => .datasec
  | .declTag .. => .declTag
  | .locParam .. => .locParam
  | .locProto .. => .locProto
  | .locsec .. => .locsec

/-- The name, where the encoder gives the type one.  Without a name the name offset
is that of the empty string. -/
def name : BtfType → String
  | .int name _ _ | .float name _ | .ref _ name _ | .fwd name _ => name.getD ""
  | .composite _ name _ _ | .enum name _ _ | .enum64 name _ _ _ => name.getD ""
  | _ => ""

end BtfType

/-- `names__match` -/
def namesMatch (t1 t2 : BtfType) : Bool := t1.name = t2.name

/-- How two types with one kind compare: at once, or by comparing other pairs of
types in turn. -/
inductive MatchStep where
  | settled (same : Bool)
  | pairs (ids : List (ℕ × ℕ))

/-- The `switch` of `types__match`, for types of the same kind. -/
def matchSwitch : BtfType → BtfType → MatchStep
  | t1@(.int _ size1 encoding1), t2@(.int _ size2 encoding2) =>
      .settled (size1 = size2 ∧ encoding1 = encoding2 ∧ namesMatch t1 t2)
  | t1@(.float _ size1), t2@(.float _ size2) => .settled (size1 = size2 ∧ namesMatch t1 t2)
  | t1@(.ref kind _ type1), t2@(.ref _ _ type2) =>
      match kind with
      | .typedef => .settled (namesMatch t1 t2)
      | .func => .settled false
      | _ => .pairs [(type1, type2)]
  | .array type1 _ nelems1, .array type2 _ nelems2 =>
      if nelems1 ≠ nelems2 then .settled false else .pairs [(type1, type2)]
  | .funcProto ret1 params1, .funcProto ret2 params2 =>
      if params1.length ≠ params2.length then .settled false
      else
        .pairs ((ret1, ret2) ::
          (params1.zip params2).map fun (p1, p2) => (p1.type, p2.type))
  | t1, t2 =>
      match t1.fwdKind with
      | .struct | .union | .enum | .enum64 => .settled (namesMatch t1 t2)
      | _ => .settled false

/-- One round of the loop of `types__match`, on types that are there. -/
def matchRound (id1 id2 : ℕ) (t1 t2 : BtfType) : MatchStep :=
  if t1.fwdKind ≠ t2.fwdKind then
    match t1, t2 with
    | .ref .const _ type1, _ => .pairs [(type1, id2)]
    | _, .ref .const _ type2 => .pairs [(id1, type2)]
    | _, _ => .settled false
  else matchSwitch t1 t2

/-- Compare pairs in turn, up to the first that does not match. -/
def allMatch (m : ℕ → ℕ → Except Crash Bool) : List (ℕ × ℕ) → Except Crash Bool
  | [] => .ok true
  | (id1, id2) :: rest =>
      match m id1 id2 with
      | .ok true => allMatch m rest
      | out => out

/-- `types__match`, in at most `fuel` rounds.  When all of them are used up the
comparison has come back to a pair that it is comparing, and never ends. -/
def typesMatch (find : ℕ → Option BtfType) : (fuel : ℕ) → (id1 id2 : ℕ) → Except Crash Bool
  | 0, _, _ => .error .diverge
  | fuel + 1, id1, id2 =>
      if id1 = id2 then .ok true
      else if id1 = 0 ∨ id2 = 0 then .ok false
      else
        match find id1, find id2 with
        | some t1, some t2 =>
            match matchRound id1 id2 t1 t2 with
            | .settled same => .ok same
            | .pairs ids => allMatch (typesMatch find fuel) ids
        | _, _ => .error .nullDeref

/-- `funcs__match`.  The index of a parameter is kept in a `uint8_t`, so that more
than 255 parameters are compared for ever unless one of the first differs. -/
def funcsMatch (find : ℕ → Option BtfType) (fuel : ℕ) (s1 s2 : FuncState) :
    Except Crash Bool :=
  if s1.nrParms ≠ s2.nrParms then .ok false
  else
    let parms := (s1.parms.zip s2.parms).take s1.nrParms
    let ids := parms.map fun (p1, p2) => (p1.typeId, p2.typeId)
    match allMatch (typesMatch find fuel) ((s1.retTypeId, s2.retTypeId) :: ids.take 256) with
    | .ok true => if s1.nrParms < 256 then .ok true else .error .diverge
    | out => out

end Pahole
