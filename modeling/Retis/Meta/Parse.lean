import Retis.Meta.Op

/-!
# Parsing a filter string

`parse_mask` and `parse_filter`: the filter is split on spaces into one or
three tokens, the left-hand side on dots into nodes, each node on colons into
a member, an optional mask and an optional cast.
-/

namespace Retis

/-- `LhsNode`: one dotted segment of the left-hand side. -/
structure LhsNode where
  member : Bytes
  mask : UInt64
  tgtType : Option Bytes
  deriving DecidableEq, Repr

namespace FilterMeta

/-- The `~` of `parse_mask`: the rest of the mask, and whether it was there. -/
def maskNot (el : Bytes) : Bytes × Bool :=
  match stripPrefix el (utf8 "~") with
  | some num => (num, true)
  | none => (el, false)

/-- The base of `parse_mask`, from the `0x` or `0b` in front, and the rest. -/
def maskBase (el : Bytes) : Nat × Bytes :=
  match stripPrefix el (utf8 "0x") with
  | some hex => (16, hex)
  | none =>
    match stripPrefix el (utf8 "0b") with
    | some bin => (2, bin)
    | none => (10, el)

/-- `parse_mask`: an optional `~`, then `0x<hex>`, `0b<bin>` or a decimal; the
value complemented after `~` and rejected when zero. -/
def parseMask (el : Bytes) : Res UInt64 := do
  let (el, not) := maskNot el
  let (base, maskStr) := maskBase el
  let mask ←
    match u64FromStrRadix maskStr base with
    | .ok m => pure m
    | .error _ =>
      bail "invalid mask. Use an hex, binary or decimal mask (0x<hex>, 0b<bin>, <decimal>)"
  let mask := if not then ~~~mask else mask
  if mask = 0 then bail "mask cannot be zero"
  pure mask

/-- The closure of `parse_filter` applied to the node `x` of the left-hand
side; `first` is whether it is the first node. -/
def parseNode (first : Bool) (x : Bytes) : Res LhsNode := do
  match split x ':' with
  | [] => bail "member is mandatory"
  | member :: elem =>
    if first ∧ member ≠ utf8 "sk_buff" then
      bail "starting struct isn't supported (not sk_buff)"
    let mask ←
      match elem with
      | el :: _ =>
        if first then bail "initial type must be a base type only"
        parseMask el
      | [] => pure 0
    match elem.drop 1 with
    | _ :: _ :: _ =>
      bail "unexpected field expression (must be under the form field[:mask[:type]])"
    | tgtType => pure { member, mask, tgtType := tgtType.head? }

/-- The first step of `parse_filter`: the filter split on spaces into the
left-hand side, the operator and the right-hand side; a lone left-hand side
stands for `lhs != 0`. -/
def splitFilter (filter : Bytes) : Res (Bytes × Bytes × Bytes) :=
  match split filter ' ' with
  | [lhs, op, rhs] => pure (lhs, op, rhs)
  | [lhs] => pure (lhs, utf8 "!=", utf8 "0")
  | _ => bail s!"invalid filter ({filter.show})"

/-- The nodes of the left-hand side: its pieces between dots, the first one by
the rules of the first node. -/
def parseLhs (lhs : Bytes) : Res (List LhsNode) :=
  match split lhs '.' with
  | [] => pure []
  | x :: xs => do
    let n ← parseNode true x
    let ns ← xs.mapM (parseNode false)
    pure (n :: ns)

/-- `parse_filter`: the nodes of the left-hand side, the operator and the
right-hand side. -/
def parseFilter (filter : Bytes) : Res (List LhsNode × MetaCmp × Bytes) := do
  let (lhs, op, rhs) ← splitFilter filter
  let lhs ← parseLhs lhs
  if lhs.length ≤ 1 then bail "expression does not point to a member"
  let op ← MetaCmp.fromStr op
  pure (lhs, op, rhs)

end FilterMeta

end Retis
