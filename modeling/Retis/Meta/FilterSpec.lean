import Retis.Meta.Filter

/-!
# The pointer load, and programs on chosen inputs

`emitLoadPtr_eq_ok` is the spec lemma of `emit_load_ptr`: the byte offset of
the pointer, which must fit in a `u16`, with `PTR_BIT` and the node's mask.
What `from_string` compiles in general is in `Retis.Meta.PathSpec`.

On chosen inputs:

* `fromString_thirty_one_hops`: nothing in `from_string` bounds the number of
  hops, and `META_OPS_MAX` is only the capacity `init_meta_map` gives
  `filter_meta_map`. A record reaching itself through a pointer compiles
  `sk_buff.next. ... .next.mark` with 31 hops to 33 operations;
* `fromString_lone_quote_panics`: a lone quote as right-hand side panics;
* `fromString_stale_bitfield_size`: the leaf's load keeps the bitfield size
  of an earlier node.
-/

namespace Retis

namespace FilterMeta

/-- `emit_load_ptr` loads at the pointer's byte offset, when it fits in a `u16`. -/
theorem emitLoadPtr_eq_ok {offt : UInt32} {mask : UInt64} {l : MetaLoad} :
    MetaOp.emitLoadPtr offt mask = .ok l ↔
      offt.toNat / 8 < UInt16.size ∧
        l = { MetaLoad.zero with offt := UInt16.ofNat (offt.toNat / 8), type := ptrBit, mask := mask } := by
  have : (offt / 8).toNat = offt.toNat / 8 := UInt32.toNat_div offt 8
  simp only [MetaOp.emitLoadPtr, bind_eq_ok, u16TryFrom, this]
  split <;> simp_all [eq_comm]

end FilterMeta

/-! ## A record that reaches itself -/

/-- A database whose `sk_buff` holds a pointer to an `sk_buff` at bit 0 and a
`u32` at bit 64. -/
def loopBtf : Btf where
  types :=
    [.void, .int 4 false, .struct [⟨utf8 "next", 3, 0, none⟩, ⟨utf8 "mark", 1, 64, none⟩],
      .ptr 2]
  names := [(utf8 "sk_buff", 2)]

/-- `sk_buff.next. ... .next.mark` with `n` hops. -/
def nextHops (n : Nat) : String :=
  "sk_buff" ++ String.join (List.replicate n ".next") ++ ".mark"

/-- The 64-bit little-endian host. -/
def host64 : Host := ⟨.w64, .little⟩

/-- Thirty-one pointer hops compile, to more operations than `filter_meta_map`
holds. -/
theorem fromString_thirty_one_hops :
    ∃ ops, FilterMeta.fromString host64 loopBtf 2 (utf8 (nextHops 31)) = .ok ops ∧
      ops.length = 33 ∧ metaOpsMax < ops.length :=
  ⟨_, rfl, rfl, by decide⟩

/-! ## A lone quote -/

/-- A lone quote as right-hand side is sliced `[1..0]` by `Rval::from_str`. -/
theorem fromString_lone_quote_panics :
    ∃ msg, FilterMeta.fromString host64 loopBtf 2 (utf8 "sk_buff.mark == '") = .error (.panic msg) :=
  ⟨_, rfl⟩

/-! ## A bitfield size kept from an earlier node -/

/-- A database whose `sk_buff` holds an `unsigned long` bitfield of width 48 at
bit 64, and whose `nf_conn` holds a `u32` at bit 32 reported without a bitfield
size. -/
def castBtf : Btf where
  types :=
    [.void, .int 4 false, .int 8 false, .struct [⟨utf8 "p", 2, 64, some 48⟩],
      .struct [⟨utf8 "mark", 1, 32, none⟩]]
  names := [(utf8 "sk_buff", 3), (utf8 "nf_conn", 4)]

/-- Through the cast bitfield to `nf_conn.mark`: the leaf's load keeps the
width 48 of the intermediate member, and so a bit offset. -/
theorem fromString_stale_bitfield_size :
    ∃ tgt, FilterMeta.fromString host64 castBtf 2 (utf8 "sk_buff.p:~0x0:nf_conn.mark == 1") =
      .ok [.target tgt, .load ⟨ptrBit, 0, 8, 0, ~~~0⟩, .load ⟨MetaType.int.code, 0, 32, 48, 0⟩] :=
  ⟨_, rfl⟩

end Retis
