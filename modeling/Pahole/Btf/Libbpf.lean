import Pahole.Support.Following

/-!
# BTF under construction

The BTF that an encoder fills through libbpf.  Every `btf__add_*` call either
appends one type, whose id is the `btf__type_cnt` before the call, or adds a
member, a value, a parameter or an entry to the type appended last.  Any of
them may fail, and then returns a negative value and leaves the BTF alone.

A string offset is represented by the string it denotes.
-/

namespace Pahole

open FallibleTable

/-- `(uint32_t)x` -/
def u32 (x : ℤ) : ℕ := (x % 4294967296).toNat

theorem u32_of_lt {n : ℕ} (h : n < 4294967296) : u32 n = n := by
  unfold u32
  omega

/-- `UINT32_MAX` -/
def uint32Max : ℕ := 4294967295

/-- `BTF_INT_SIGNED` and `BTF_INT_BOOL`, the encodings the encoder uses. -/
inductive IntEncoding where
  | none
  | signed
  | bool
  deriving DecidableEq, Repr

/-- The kinds that consist of a reference and, some of them, a name. -/
inductive RefKind where
  | ptr
  | typedef
  | volatile
  | const
  | restrict
  | func
  | typeTag
  /-- a `BTF_KIND_TYPE_TAG` with its `kind_flag` set -/
  | typeAttr
  deriving DecidableEq, Repr

/-- `struct btf_member`, with the bit offset and bitfield size as given. -/
structure BtfMember where
  name : Option String
  type : ℕ
  bitOffset : ℕ
  bitfieldSize : ℕ
  deriving DecidableEq, Repr

/-- `struct btf_param` -/
structure BtfParam where
  name : Option String
  type : ℕ
  deriving DecidableEq, Repr

/-- `struct btf_var_secinfo` -/
structure VarSecinfo where
  type : ℕ
  offset : ℕ
  size : ℕ
  deriving DecidableEq, Repr

/-- An entry of a LOCSEC. -/
structure LocsecEntry where
  func : ℕ
  locProto : ℕ
  offset : ℕ
  deriving DecidableEq, Repr

/-- `struct btf_type` with the data that follows it. -/
inductive BtfType where
  | int (name : Option String) (size : ℕ) (encoding : IntEncoding)
  | float (name : Option String) (size : ℕ)
  | ref (kind : RefKind) (name : Option String) (type : ℕ)
  | fwd (name : Option String) (isUnion : Bool)
  | array (type indexType nelems : ℕ)
  | composite (isUnion : Bool) (name : Option String) (size : ℕ)
      (members : List BtfMember)
  | enum (name : Option String) (size : ℕ) (values : List (String × ℤ))
  | enum64 (name : Option String) (size : ℕ) (isSigned : Bool)
      (values : List (String × ℤ))
  | funcProto (ret : ℕ) (params : List BtfParam)
  | var (name : String) (linkage type : ℕ)
  | datasec (name : String) (size : ℕ) (vars : List VarSecinfo)
  | declTag (value : String) (type : ℕ) (componentIdx : ℤ)
  | locParam (size flags : ℕ) (values : List ℕ)
  | locProto (params : List ℤ)
  | locsec (name : String) (entries : List LocsecEntry)
  deriving DecidableEq, Repr

namespace BtfType

/-- The type ids that the encoder writes for a type of a CU, in their order.  An
array's index type is not among them: no DWARF tag stands behind it. -/
def refs : BtfType → List ℕ
  | .ref _ _ type => [type]
  | .array type _ _ => [type]
  | .composite _ _ _ members => members.map BtfMember.type
  | .funcProto ret params => ret :: params.map BtfParam.type
  | _ => []

/-- `btf__add_field` -/
def addField (m : BtfMember) : BtfType → BtfType
  | .composite isUnion name size members =>
      .composite isUnion name size (members ++ [m])
  | t => t

/-- `btf__add_enum_value`, `btf__add_enum64_value` -/
def addEnumValue (name : String) (value : ℤ) : BtfType → BtfType
  | .enum n size values => .enum n size (values ++ [(name, value)])
  | .enum64 n size isSigned values => .enum64 n size isSigned (values ++ [(name, value)])
  | t => t

/-- `btf__add_func_param` -/
def addFuncParam (p : BtfParam) : BtfType → BtfType
  | .funcProto ret params => .funcProto ret (params ++ [p])
  | t => t

/-- `btf__add_datasec_var_info` -/
def addVarInfo (v : VarSecinfo) : BtfType → BtfType
  | .datasec name size vars => .datasec name size (vars ++ [v])
  | t => t

/-- `btf__add_loc_param_value` -/
def addLocValue (v : ℕ) : BtfType → BtfType
  | .locParam size flags values => .locParam size flags (values ++ [v])
  | t => t

/-- `btf__add_loc_proto_param` -/
def addLocProtoParam (id : ℤ) : BtfType → BtfType
  | .locProto params => .locProto (params ++ [id])
  | t => t

/-- `btf__add_locsec_loc` -/
def addLocsecLoc (e : LocsecEntry) : BtfType → BtfType
  | .locsec name entries => .locsec name (entries ++ [e])
  | t => t

end BtfType

/-- `btf__type_by_id`, in a BTF without a base -/
def btfTypeById (types : List BtfType) (id : ℕ) : Option BtfType :=
  if id = 0 then none else types[id - 1]?

/-- A session with libbpf, on behalf of a client with data `β`. -/
abbrev Btf (β : Type) := Session BtfType β

/-- A program that makes libbpf calls. -/
abbrev BtfM (β ρ : Type) := Prog BtfType β ρ

/-- The libbpf calls of the encoder, told apart where it matters which of them
fails. -/
inductive CallSite where
  /-- a type of the CU, a member, a value or a parameter of it -/
  | type
  | funcProto
  /-- the `int` made up for array indexes -/
  | indexInt
  /-- a declaration tag on a struct, union or typedef of the CU -/
  | typeDeclTag
  | str
  | var
  | func
  /-- a declaration tag on a function or a variable, or a kfunc's tag -/
  | declTag
  /-- the type tag and the pointer of a `bpf_arena` argument -/
  | arena
  | loc
  | datasec
  | varInfo
  deriving DecidableEq, Repr

/-- The reaction of the function that makes a call when the call fails. -/
def CallSite.reaction : CallSite → Reaction
  | .funcProto => .crash
  | .typeDeclTag => .drop
  | .indexInt => .ignore
  | .datasec => .ignore
  | _ => .propagate

/-- A plan of libbpf calls. -/
abbrev BtfPlan (β : Type) := Plan CallSite BtfType β

/-- The program `p` makes the calls of `plan` from `s`: it ends as the plan does, with the value
`val` of the last table, where a failing call stops it if its site says so. -/
abbrev Makes {β : Type} (p : BtfM β ℤ) (s : Btf β) (plan : BtfPlan β)
    (val : Table BtfType β → ℤ) : Prop :=
  Follows CallSite.reaction p s plan val

/-- The plan of a single call. -/
def callPlan {β : Type} (site : CallSite) (op : Op BtfType) : BtfPlan β :=
  [.call site fun _ => op]

end Pahole
