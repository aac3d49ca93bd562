import Retis.Meta.Walk
import Retis.Meta.Parse

/-!
# The filter compiler

`FilterMeta::from_string`: the filter is parsed, its root resolved to the
`sk_buff` struct, then each node of the left-hand side is resolved in the
current record. An intermediate node either dereferences a pointer (one
pointer load, the offset starting again from 0) or stays in an embedded record
(the offset carried on); the leaf gives the final load, and the right-hand
side the target, put first.

The loop of the source keeps `offt`, `stored_offset`, `stored_bf_size`, `mask`
and the current type in mutable locals; the model carries them in a
`WalkState` from one node to the next.
-/

namespace Retis

/-- The locals of the loop of `from_string`. -/
structure WalkState where
  ops : List MetaLoad
  offt : UInt32
  storedOffset : UInt32
  storedBfSize : UInt32
  mask : UInt64
  type : Ty
  deriving DecidableEq, Repr

namespace FilterMeta

variable (host : Host) (btf : Btf) (fuel : Nat)

/-- The type a cast of an intermediate node to `tgt` walks into: the first
union, struct or typedef of that name, followed to a record with no pointer
on the way. -/
def castType (tgt : Bytes) : Res Ty := do
  let types ←
    match btf.resolveTypesByName tgt with
    | .ok ts => pure ts
    | .error e => bail s!"unable to resolve data type: {e}"
  match types.find? fun t => t.IsRecord ∨ t matches .typedef _ with
  | some t => do
    let nw ← nextWalkable host btf fuel t false
    if nw.1 > 0 then
      bail s!"cast type ({tgt.show}: {t.name}) cannot be an alias to a pointer"
    pure nw.2
  | none => bail s!"Could not resolve {tgt.show} to a struct or typedef"

/-- The pointer bookkeeping of an intermediate node found at bit `offset`,
after `next_walkable` counted `ind` indirections: one pointer load and the
offset starting again from 0, or the offset carried into an embedded record. -/
def hop (field : LhsNode) (offset : UInt32) (ind : UInt8) (st : WalkState) : Res WalkState :=
  if ind = 1 then
    (fun op => { st with offt := 0, ops := st.ops ++ [op] }) <$>
      MetaOp.emitLoadPtr offset field.mask
  else if ind > 1 then bail "pointers of pointers are not supported"
  else if field.mask ≠ 0 then
    bail "intermediate members masking is only supported for pointers and unsigned numbers"
  else pure { st with offt := offset }

/-- The record the walk continues in after an intermediate node: the cast's
type if there is one, else the record `next_walkable` reached. -/
def nextType (field : LhsNode) (x : Ty) : Res Ty :=
  match field.tgtType with
  | some tgt => castType host btf fuel tgt
  | none => pure x

/-- The step of an intermediate node whose member was found at bit `offset`
with type `snode`. -/
def walkInner (field : LhsNode) (offset : UInt32) (snode : Ty) (st : WalkState) :
    Res WalkState := do
  let (ind, x) ← nextWalkable host btf fuel snode field.tgtType.isSome
  let st ← hop field offset ind st
  let type ← nextType host btf fuel field x
  pure { st with type := type }

/-- The step of the leaf, of type `snode`. -/
def walkLeaf (field : LhsNode) (snode : Ty) (st : WalkState) : Res WalkState :=
  match field.tgtType with
  | some tgt => bail s!"trying to cast a leaf member into {tgt.show}"
  | none => pure { st with type := snode, mask := field.mask }

/-- `walk_btf_node` on the current record, a missing member being an error. -/
def findField (field : LhsNode) (st : WalkState) : Res SubNode := do
  match ← walkBtfNode btf field.member fuel st.type st.offt with
  | some r => pure r
  | none => bail s!"field {field.member.show} not found in type {st.type.name}"

/-- The body of the loop of `from_string` for the node `field`; `last` is
whether it is the leaf. -/
def walkField (field : LhsNode) (last : Bool) (st : WalkState) : Res WalkState := do
  let (offset, bfs, snode) ← findField btf fuel field st
  let st ← (if last then walkLeaf field snode st else walkInner host btf fuel field offset snode st)
  pure { st with storedOffset := offset, storedBfSize := bfs.getD st.storedBfSize }

/-- The loop of `from_string` over the nodes after the root. -/
def walkFields : List LhsNode → WalkState → Res WalkState
  | [], st => pure st
  | field :: fields, st => do
    let st ← walkField host btf fuel field fields.isEmpty st
    walkFields fields st

/-- The state the loop starts from, in the root record `type`. -/
def WalkState.init (type : Ty) : WalkState := ⟨[], 0, 0, 0, 0, type⟩

/-- The root record: the first struct named `initSym`. -/
def rootType (initSym : Bytes) : Res Ty := do
  let types ←
    match btf.resolveTypesByName initSym with
    | .ok ts => pure ts
    | .error e => bail s!"unable to resolve sk_buff data type {e}"
  match types.find? (· matches .struct _) with
  | some type => pure type
  | none => bail s!"Could not resolve {initSym.show} to a struct"

/-- `FilterMeta::from_string`: the program compiled from `fstring`, its target
first. -/
def fromString (fstring : Bytes) : Res (List MetaOp) := do
  let (fields, op, rval) ← parseFilter fstring
  match fields with
  | [] => throw (.panic "removal index (is 0) should be < len (is 0)")
  | init :: fields =>
    let type ← rootType btf init.member
    let st ← walkFields host btf fuel fields (WalkState.init type)
    let lmo ← MetaOp.emitLoad btf fuel st.type st.storedOffset st.storedBfSize st.mask
    let ops := (st.ops ++ [lmo]).map MetaOp.load
    let rval ← Rval.fromStr rval
    let tgt ← MetaOp.emitTarget host lmo rval op
    pure (.target tgt :: ops)

end FilterMeta

end Retis
