import Retis.Btf

/-!
# Meta operations and their emitters

The records of a compiled filter program (`MetaLoad`, `MetaTarget`, the union
`MetaOp`) and the three emitters of `filter.rs`: `emit_load_ptr` for a pointer
hop, `emit_load` for the leaf member, `emit_target` for the right-hand side.

`MetaOp` is a `#[repr(C)]` union in the source, read back through `load_ref` or
`target_ref`; the model tags the two shapes instead, which is what every caller
relies on (a program is one target then loads), and each emitter returns the
record it fills. Records start zeroed, as `MetaOp::new()` does.
-/

namespace Retis

/-- `META_OPS_MAX`, the capacity of `filter_meta_map`. -/
def metaOpsMax : Nat := 32

/-- `META_TARGET_MAX`, the size of a target's buffer. -/
def metaTargetMax : Nat := 32

/-- `PTR_BIT`. -/
def ptrBit : UInt8 := (1 : UInt8) <<< 6

/-- `SIGN_BIT`. -/
def signBit : UInt8 := (1 : UInt8) <<< 7

/-- `MetaCmp`, the comparison of a target. -/
inductive MetaCmp where
  | eq
  | gt
  | lt
  | ge
  | le
  | ne
  deriving DecidableEq, Repr

namespace MetaCmp

/-- `cmp_op as u8`. -/
def code : MetaCmp → UInt8
  | .eq => 0
  | .gt => 1
  | .lt => 2
  | .ge => 3
  | .le => 4
  | .ne => 5

/-- `impl Display for MetaCmp`. -/
def display : MetaCmp → String
  | .eq => "=="
  | .gt => ">"
  | .lt => "<"
  | .ge => ">="
  | .le => "<="
  | .ne => "!="

/-- `MetaCmp::from_str`. -/
def fromStr (op : Bytes) : Res MetaCmp :=
  if op = utf8 "==" then pure .eq
  else if op = utf8 ">" then pure .gt
  else if op = utf8 "<" then pure .lt
  else if op = utf8 ">=" then pure .ge
  else if op = utf8 "<=" then pure .le
  else if op = utf8 "!=" then pure .ne
  else bail s!"unknown comparison operator ({op.show})."

end MetaCmp

/-- `MetaType`, the size class in the low bits of a load's type. -/
inductive MetaType where
  | char
  | short
  | int
  | long
  deriving DecidableEq, Repr

/-- `MetaType as u8`. -/
def MetaType.code : MetaType → UInt8
  | .char => 1
  | .short => 2
  | .int => 3
  | .long => 4

/-- `MetaLoad`: bits 0-4 of `type` hold the size class, bit 6 `PTR_BIT`, bit 7
`SIGN_BIT`; `offt` is a byte offset when `bfSize` is zero and a bit offset
otherwise. -/
structure MetaLoad where
  type : UInt8
  nmemb : UInt8
  offt : UInt16
  bfSize : UInt8
  mask : UInt64
  deriving DecidableEq, Repr

namespace MetaLoad

/-- The load part of `MetaOp::new()`. -/
def zero : MetaLoad := ⟨0, 0, 0, 0, 0⟩

/-- `is_byte`. -/
def isByte (l : MetaLoad) : Bool := l.type &&& 0x1f == MetaType.char.code

/-- `is_short`. -/
def isShort (l : MetaLoad) : Bool := l.type &&& 0x1f == MetaType.short.code

/-- `is_int`. -/
def isInt (l : MetaLoad) : Bool := l.type &&& 0x1f == MetaType.int.code

/-- `is_long`. -/
def isLong (l : MetaLoad) : Bool := l.type &&& 0x1f == MetaType.long.code

/-- `is_num`. -/
def isNum (l : MetaLoad) : Bool := l.isByte || l.isShort || l.isInt || l.isLong

/-- `is_ptr`. -/
def isPtr (l : MetaLoad) : Bool := l.type &&& ptrBit > 0

/-- `is_signed`. -/
def isSigned (l : MetaLoad) : Bool := l.type &&& signBit > 0

/-- `is_arr`. -/
def isArr (l : MetaLoad) : Bool := l.nmemb > 0

end MetaLoad

/-- `md[..bs.len()].copy_from_slice(bs)`, for `bs` no longer than `md`. -/
def copyFromSlice (md bs : List UInt8) : List UInt8 := (bs ++ md.drop bs.length).take md.length

@[simp] theorem length_copyFromSlice (md bs : List UInt8) :
    (copyFromSlice md bs).length = md.length := by
  simp only [copyFromSlice, List.length_take, List.length_append, List.length_drop]
  omega

/-- `MetaTarget`: the right-hand side's bytes, their size and the comparison. -/
structure MetaTarget where
  md : List UInt8
  sz : UInt8
  cmp : UInt8
  md_length : md.length = metaTargetMax
  deriving DecidableEq

/-- The target part of `MetaOp::new()`. -/
def MetaTarget.zero : MetaTarget := ⟨List.replicate metaTargetMax 0, 0, 0, by simp⟩

/-- `MetaTarget` with `bs` copied to the front of its buffer. -/
def MetaTarget.copyMd (t : MetaTarget) (bs : List UInt8) : MetaTarget :=
  { t with md := copyFromSlice t.md bs, md_length := by simp [t.md_length] }

/-- `MetaOp`: a load or a target. -/
inductive MetaOp where
  | load (l : MetaLoad)
  | target (t : MetaTarget)
  deriving DecidableEq

/-- `Rval`, the right-hand side as `Rval::from_str` classifies it. -/
inductive Rval where
  | dec (s : Bytes)
  | hex (s : Bytes)
  | str (s : Bytes)
  deriving DecidableEq, Repr

/-- `Rval::from_str`: quoted strings lose their quotes (a byte slice, which
panics on a lone quote), `0x` prefixes are trimmed, anything else is decimal. -/
def Rval.fromStr (rval : Bytes) : Res Rval :=
  if (startsWith rval (utf8 "\"") && endsWith rval (utf8 "\"")) ||
      (startsWith rval (utf8 "'") && endsWith rval (utf8 "'")) then do
    let s ← slice rval 1 (rval.length - 1)
    pure (.str s)
  else if startsWith rval (utf8 "0x") then pure (.hex (trimStartMatches rval (utf8 "0x")))
  else pure (.dec rval)

namespace MetaOp

/-- `bail_on_arr`. -/
def bailOnArr (load : MetaLoad) (tn : String) : Res Unit :=
  if load.isArr then bail s!"array of {tn} are not supported." else pure ()

/-- `bail_on_ptr`. -/
def bailOnPtr (load : MetaLoad) (tn : String) : Res Unit :=
  if load.isPtr then bail s!"pointers to {tn} are not supported." else pure ()

/-- `emit_load_ptr`: a pointer load at byte `offt / 8`. -/
def emitLoadPtr (offt : UInt32) (mask : UInt64) : Res MetaLoad := do
  let o ← u16TryFrom (offt / 8)
  pure { MetaLoad.zero with offt := o, type := ptrBit, mask := mask }

/-- The size class `emit_load` gives an integer of `size` bytes. -/
def intClass (size : Nat) : Res MetaType :=
  match size with
  | 8 => pure .long
  | 4 => pure .int
  | 2 => pure .short
  | 1 => pure .char
  | _ => bail "unsupported type."

/-- One iteration of the loop of `emit_load`, on the type `t` of the chain. -/
def emitLoadStep (t : Ty) (lop : MetaLoad) : Res MetaLoad :=
  match t with
  | .ptr _ => do
    bailOnPtr lop t.name
    pure { lop with type := lop.type ||| ptrBit }
  | .array _ len => do
    bailOnPtr lop t.name
    let n ← u8TryFrom len
    pure { lop with nmemb := n }
  | .enum signed => do
    bailOnPtr lop t.name
    let ty := lop.type ||| MetaType.int.code
    pure { lop with type := if signed then ty ||| signBit else ty }
  | .enum64 signed => do
    bailOnPtr lop t.name
    let ty := lop.type ||| MetaType.long.code
    pure { lop with type := if signed then ty ||| signBit else ty }
  | .int size signed => do
    let ty := if signed then lop.type ||| signBit else lop.type
    let cls ← intClass size
    let lop := { lop with type := ty ||| cls.code }
    if !lop.isByte then
      bailOnArr lop t.name
      bailOnPtr lop t.name
    pure lop
  | .typedef _ | .volatile _ | .const _ | .restrict _ | .declTag _ | .typeTag _ => pure lop
  | _ => bail s!"found unsupported type while emitting operation ({t.name})."

/-- The loop of `emit_load` over `t`, `type_iter(t)`, ... -/
def emitLoadLoop (btf : Btf) : Nat → Ty → MetaLoad → Res MetaLoad
  | 0, _, _ => throw .outOfFuel
  | fuel + 1, t, lop => do
    let lop ← emitLoadStep t lop
    match btf.next t with
    | some t' => emitLoadLoop btf fuel t' lop
    | none => pure lop

/-- The mask check of `emit_load`. -/
def setMask (lop : MetaLoad) (mask : UInt64) : Res MetaLoad :=
  if mask > 0 then
    if lop.isPtr || (lop.isNum && !lop.isSigned) then pure { lop with mask := mask }
    else bail "mask is only supported for pointers and unsigned numeric members."
  else pure lop

/-- The offset encoding of `emit_load`: `bf_size` and `offt` converted, then
`offt` divided by 8 when the load is not a bitfield. -/
def setOffset (lop : MetaLoad) (offt bfs : UInt32) : Res MetaLoad := do
  let bf ← u8TryFrom bfs
  let o ← u16TryFrom offt
  let lop := { lop with bfSize := bf, offt := o }
  pure (if bfs = 0 then { lop with offt := lop.offt / 8 } else lop)

/-- `emit_load`: the load of a leaf member of type `type` at bit offset `offt`. -/
def emitLoad (btf : Btf) (fuel : Nat) (type : Ty) (offt bfs : UInt32) (mask : UInt64) :
    Res MetaLoad := do
  if !type.isBtfType then bail "Unable to retrieve iterable BTF type"
  let lop ← emitLoadLoop btf fuel type MetaLoad.zero
  let lop ← setMask lop mask
  setOffset lop offt bfs

/-- The size in bytes `emit_target` records for a numeric load. -/
def numSize (lmo : MetaLoad) : Res UInt8 :=
  if lmo.isByte then pure 1
  else if lmo.isShort then pure 2
  else if lmo.isInt then pure 4
  else if lmo.isLong then pure 8
  else bail "unexpected numeric type"

/-- The value `emit_target` reads from a numeric right-hand side. -/
def numValue (lmo : MetaLoad) (rval : Rval) : Res UInt64 :=
  match rval with
  | .dec val =>
    if startsWith val (utf8 "-") then
      if !lmo.isSigned then
        bail "invalid target value (value is signed while type is unsigned)"
      else
        match parseI64 val with
        | .ok v => pure (UInt64.ofNat (v % 2 ^ 64).toNat)
        | .error e => throw e.fault
    else
      match parseU64 val with
      | .ok v => pure v
      | .error e => throw e.fault
  | .hex val =>
    match u64FromStrRadix val 16 with
    | .ok v => pure v
    | .error e => throw e.fault
  | _ => bail "invalid target value (neither decimal nor hex)."

/-- The string branch of `emit_target`, for a pointer or array load: `top`
with the string copied to the front of its buffer. -/
def strTarget (top : MetaTarget) (rval : Rval) (cmpOp : MetaCmp) : Res MetaTarget :=
  if cmpOp ≠ .eq ∧ cmpOp ≠ .ne then
    bail s!"wrong comparison operator. Only '{MetaCmp.eq.display}' and '{MetaCmp.ne.display}' are supported for strings."
  else
    match rval with
    | .str val =>
      if val.length ≥ top.md.length then bail s!"invalid rval size (max {top.md.length - 1})."
      else pure { top.copyMd val with sz := UInt8.ofNat val.length }
    | _ => bail "invalid target value for array or ptr type. Only strings are supported."

/-- The numeric branch of `emit_target`: `top` with the value's host bytes
copied to the front of its buffer, and the load's size. -/
def numTarget (host : Host) (top : MetaTarget) (lmo : MetaLoad) (rval : Rval) :
    Res MetaTarget := do
  let long ← numValue lmo rval
  let top := top.copyMd (toNeBytes host.endian long)
  let sz ← numSize lmo
  pure { top with sz := sz }

/-- `emit_target`: the target of the comparison of the load `lmo` with `rval`. -/
def emitTarget (host : Host) (lmo : MetaLoad) (rval : Rval) (cmpOp : MetaCmp) :
    Res MetaTarget := do
  let top := MetaTarget.zero
  let top ←
    if lmo.isPtr || lmo.nmemb > 0 then strTarget top rval cmpOp
    else if lmo.isNum then numTarget host top lmo rval
    else pure top
  pure { top with cmp := cmpOp.code }

end MetaOp

end Retis
