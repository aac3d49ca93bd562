import Retis.Rust.Num

/-!
# The kernel type database

The filter compiler reads the running kernel's BTF through the `btf_rs` crate,
which is not part of this repository. The model keeps exactly the interface the
compiler uses:

* a type table indexed by type id, with the kinds of `btf_rs::Type` the
  compiler tells apart (`resolve_type_by_id`, `resolve_chained_type`);
* a name table (`resolve_types_by_name`);
* for each type its chained type id (`as_btf_type` and `get_type_id`), which
  `type_iter` follows: the iterator yields the type the id resolves to, and
  ends at a type without one or at an id that does not resolve.

Member names are resolved strings, as `resolve_name(member).unwrap()` returns
them when it does not panic. A database may contain cycles; the loops of the
compiler that follow chains or nested members take a fuel argument and stop
with `Fault.outOfFuel` when it runs out.
-/

namespace Retis

/-- A member of a `Struct` or `Union`, as `btf_rs::Member` reports it. -/
structure Member where
  name : Bytes
  type : Nat
  bitOffset : UInt32
  bitfieldSize : Option UInt32
  deriving DecidableEq, Repr

/-- `btf_rs::Type`. Integers carry their byte size and sign, arrays their
element type and length, records their members; the modifiers carry the id
of the type they qualify. -/
inductive Ty where
  | void
  | int (size : Nat) (signed : Bool)
  | ptr (type : Nat)
  | array (type : Nat) (len : UInt32)
  | struct (members : List Member)
  | union (members : List Member)
  | enum (signed : Bool)
  | enum64 (signed : Bool)
  | typedef (type : Nat)
  | volatile (type : Nat)
  | const (type : Nat)
  | restrict (type : Nat)
  | declTag (type : Nat)
  | typeTag (type : Nat)
  | fwd
  | func
  | funcProto
  | var
  | datasec
  | float
  deriving DecidableEq, Repr

namespace Ty

/-- `Type::name()`: the kind's name, used in error messages. -/
def name : Ty → String
  | .void => "void"
  | .int .. => "int"
  | .ptr _ => "ptr"
  | .array .. => "array"
  | .struct _ => "struct"
  | .union _ => "union"
  | .enum _ => "enum"
  | .enum64 _ => "enum64"
  | .typedef _ => "typedef"
  | .volatile _ => "volatile"
  | .const _ => "const"
  | .restrict _ => "restrict"
  | .declTag _ => "decl-tag"
  | .typeTag _ => "type-tag"
  | .fwd => "fwd"
  | .func => "func"
  | .funcProto => "func-proto"
  | .var => "var"
  | .datasec => "datasec"
  | .float => "float"

/-- `as_btf_type().is_some()`: every kind but `void` can start a `type_iter`. -/
def isBtfType : Ty → Bool
  | .void => false
  | _ => true

/-- `get_type_id()`: the id of the type this one refers to, for pointers,
arrays and the modifiers. -/
def typeId : Ty → Option Nat
  | .ptr i | .array i _ | .typedef i | .volatile i | .const i | .restrict i
  | .declTag i | .typeTag i => some i
  | _ => none

/-- The type ids `t` refers to: its chained type, or its members' types. -/
def refs : Ty → List Nat
  | .struct ms | .union ms => ms.map (·.type)
  | t => t.typeId.toList

/-- Typedef, volatile, const, restrict, decl-tag and type-tag: the kinds every
loop of the compiler passes through unchanged. -/
def IsTransparent : Ty → Prop
  | .typedef _ | .volatile _ | .const _ | .restrict _ | .declTag _ | .typeTag _ => True
  | _ => False

/-- A `Struct` or a `Union`. -/
def IsRecord : Ty → Prop
  | .struct _ | .union _ => True
  | _ => False

instance (t : Ty) : Decidable t.IsTransparent := by
  cases t <;> unfold IsTransparent <;> infer_instance

instance (t : Ty) : Decidable t.IsRecord := by
  cases t <;> unfold IsRecord <;> infer_instance

end Ty

/-- A type database: the type table, indexed by id, and the names of the
named types. -/
structure Btf where
  types : List Ty
  names : List (Bytes × Nat)
  deriving DecidableEq, Repr

namespace Btf

/-- `resolve_type_by_id(id)`. -/
def resolveTypeById (btf : Btf) (id : Nat) : Option Ty := btf.types[id]?

/-- `resolve_chained_type(member)`. -/
def resolveChainedType (btf : Btf) (m : Member) : Option Ty := btf.resolveTypeById m.type

/-- `resolve_types_by_name(name)`: the types of that name in id order; an error
when there is none. -/
def resolveTypesByName (btf : Btf) (name : Bytes) : Except String (List Ty) :=
  match (btf.names.filter (·.1 = name)).filterMap (btf.resolveTypeById ·.2) with
  | [] => .error "no type with this name"
  | ts => .ok ts

/-- One step of `type_iter`: the type `t`'s id resolves to. -/
def next (btf : Btf) (t : Ty) : Option Ty := t.typeId.bind btf.resolveTypeById

/-- Every type id a type of the table refers to resolves, as the kernel checks
when it loads BTF. -/
def WellFormed (btf : Btf) : Prop := ∀ t ∈ btf.types, ∀ i ∈ t.refs, i < btf.types.length

instance (btf : Btf) : Decidable btf.WellFormed := by unfold WellFormed; infer_instance

theorem next_mem {btf : Btf} {t t' : Ty} (h : btf.next t = some t') : t' ∈ btf.types := by
  obtain ⟨i, -, hi⟩ := Option.bind_eq_some.1 h
  exact List.getElem?_mem hi

/-- In a well-formed database a chain only ends at a type without a chained
type. -/
theorem next_eq_none {btf : Btf} {t : Ty} (hwf : btf.WellFormed) (ht : t ∈ btf.types)
    (h : btf.next t = none) : t.typeId = none := by
  cases hid : t.typeId with
  | none => rfl
  | some i =>
    have hi : i < btf.types.length := hwf t ht i (by cases t <;> simp_all [Ty.refs, Ty.typeId])
    simp [next, hid, resolveTypeById, List.getElem?_eq_getElem hi] at h

end Btf

/-- A byte string shown in a message, one character per byte. -/
def Bytes.show (s : Bytes) : String := String.mk (s.map fun b => Char.ofNat b.toNat)

end Retis
