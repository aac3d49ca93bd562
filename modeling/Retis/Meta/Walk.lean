import Retis.Meta.Op

/-!
# Walking the type graph

`walk_btf_node` finds a member of a record by name, descending into anonymous
records; `check_one_walkable` and `next_walkable` follow a member's type chain
to the next record, counting pointer indirections in a `u8`.

Both recursions of the source follow the type graph, which need not be
acyclic, so the model gives each a fuel argument: one unit per anonymous
record entered, one per chain element visited.
-/

namespace Retis

/-- What `walk_btf_node` returns for a match: the member's bit offset from the
start of the walk, its bitfield size and its resolved type. -/
abbrev SubNode := UInt32 × Option UInt32 × Ty

/-- The member loop of `walk_btf_node`, with `walk` the recursive call on an
anonymous record. An unnamed member that is not a record, or whose type does
not resolve, ends the search with `None`. -/
def walkMembers (btf : Btf) (nodeName : Bytes) (walk : Ty → UInt32 → Res (Option SubNode))
    (offset : UInt32) : List Member → Res (Option SubNode)
  | [] => pure none
  | member :: members =>
    if member.name = nodeName then
      match btf.resolveChainedType member with
      | some ty => do
        let o ← addU32 offset member.bitOffset
        pure (some (o, member.bitfieldSize, ty))
      | none => pure none
    else if member.name = [] then
      match btf.resolveChainedType member with
      | none => pure none
      | some s =>
        if s.IsRecord then do
          let o ← addU32 offset member.bitOffset
          match ← walk s o with
          | some r => pure (some r)
          | none => walkMembers btf nodeName walk offset members
        else pure none
    else walkMembers btf nodeName walk offset members

/-- `walk_btf_node(btf, type, node_name, offset)`. -/
def walkBtfNode (btf : Btf) (nodeName : Bytes) : Nat → Ty → UInt32 → Res (Option SubNode)
  | 0, _, _ => throw .outOfFuel
  | fuel + 1, type, offset =>
    match type with
    | .struct members | .union members =>
      walkMembers btf nodeName (walkBtfNode btf nodeName fuel) offset members
    | _ => pure none

namespace FilterMeta

/-- `check_one_walkable(t, ind, casted)`: whether `t` is a record, and the
indirection count after `t`. A pointer counts, and so does an integer of
pointer size when a cast was requested. -/
def checkOneWalkable (host : Host) (t : Ty) (ind : UInt8) (casted : Bool) : Res (Bool × UInt8) :=
  match t with
  | .int size _ =>
    if size = host.ptrWidth.bytes ∧ casted = true then do
      let ind ← addU8 ind 1
      pure (false, ind)
    else bail s!"unexpected type ({t.name}) while walking struct members"
  | .ptr _ => do
    let ind ← addU8 ind 1
    pure (false, ind)
  | .struct _ | .union _ => pure (true, ind)
  | .typedef _ | .volatile _ | .const _ | .restrict _ | .declTag _ | .typeTag _ =>
    pure (false, ind)
  | _ => bail s!"unexpected type ({t.name}) while walking struct members"

/-- The loop of `next_walkable` over `type_iter(type)`, from the chain element
`x` on, with the indirection count `ind` so far. -/
def nextWalkableLoop (host : Host) (btf : Btf) (casted : Bool) :
    Nat → Option Ty → UInt8 → Res (UInt8 × Ty)
  | _, none, _ => bail "failed to retrieve next walkable object."
  | 0, some _, _ => throw .outOfFuel
  | fuel + 1, some x, ind => do
    let (walkable, ind) ← checkOneWalkable host x ind casted
    if walkable then pure (ind, x)
    else nextWalkableLoop host btf casted fuel (btf.next x) ind

/-- `next_walkable(btf, type, casted)`: the indirection count and the type
reached. With a cast the walk stops after `type` itself. -/
def nextWalkable (host : Host) (btf : Btf) (fuel : Nat) (type : Ty) (casted : Bool) :
    Res (UInt8 × Ty) := do
  let (walkable, ind) ← checkOneWalkable host type 0 casted
  if walkable then pure (0, type)
  else if casted then pure (ind, type)
  else if !type.isBtfType then
    bail "cannot convert to iterable type while retrieving next walkable"
  else nextWalkableLoop host btf casted fuel (btf.next type) ind

end FilterMeta

end Retis
