import Retis.Meta.FilterSpec

/-!
# The leaf load

Proved here:

* `setOffset_eq_ok`: the offset encoding of `emit_load` accepts exactly bit
  offsets below `2 ^ 16` and bitfield sizes below `2 ^ 8`, whatever the
  load; the byte offset is the bit offset divided by 8 afterwards. So a leaf
  at byte 8192 or beyond is rejected (`emitLoad_byte_8192`) while
  `emit_load_ptr`, which divides first, accepts a pointer there.
* `emitLoad_enum_array`: an array of enums passes the loop of `emit_load`,
  giving a load with `nmemb > 0` whose size class is not `char`: the
  `Enum`/`Enum64` arms check `bail_on_ptr` but not `bail_on_arr`.
* `emitLoad_class`: in a well-formed database every load `emit_load` returns
  has a size class. The loop keeps the class bits zero along pointers, arrays
  and modifiers, and the chain can only end at an integer or an enum, which
  sets them.
-/

namespace Retis

namespace MetaOp

/-! ## The size class -/

set_option maxRecDepth 20000 in
@[simp] theorem or_ptrBit_class : ∀ x : UInt8, (x ||| ptrBit) &&& 0x1f = x &&& 0x1f :=
  forall_uint8 (by decide)

set_option maxRecDepth 20000 in
@[simp] theorem or_signBit_class : ∀ x : UInt8, (x ||| signBit) &&& 0x1f = x &&& 0x1f :=
  forall_uint8 (by decide)

set_option maxRecDepth 20000 in
theorem or_code_class (k : MetaType) :
    ∀ x : UInt8, x &&& 0x1f = 0 → (x ||| k.code) &&& 0x1f = k.code := by
  cases k <;> exact forall_uint8 (by decide)

/-- A step on a type with a chained type keeps the size class. -/
theorem emitLoadStep_class {t : Ty} {lop l : MetaLoad} (ht : t.typeId.isSome)
    (h : emitLoadStep t lop = .ok l) : l.type &&& 0x1f = lop.type &&& 0x1f := by
  cases t <;> simp [Ty.typeId] at ht <;> simp [emitLoadStep] at h
  case ptr => obtain ⟨-, rfl⟩ := h; simp
  case array => obtain ⟨-, _, -, rfl⟩ := h; rfl
  all_goals subst h; rfl

/-- The checks of the `Int` arm return the load they check. -/
private theorem checks_eq_ok {p : Prop} [Decidable p] {x y : Res Unit} {v l : MetaLoad}
    (h : (if p then x >>= fun _ => (fun _ => v) <$> y else pure v) = .ok l) : l = v := by
  split at h <;> simp at h
  · exact h.2.2.symm
  · exact h.symm

/-- A step on a type without a chained type, from a load without a size class,
gives it one. -/
theorem emitLoadStep_base {t : Ty} {lop l : MetaLoad} (ht : t.typeId = none)
    (h0 : lop.type &&& 0x1f = 0) (h : emitLoadStep t lop = .ok l) :
    ∃ k : MetaType, l.type &&& 0x1f = k.code := by
  cases t <;> simp [Ty.typeId] at ht <;> simp [emitLoadStep] at h
  case int size signed =>
    obtain ⟨k, -, h⟩ := h
    have h0' : (if signed then lop.type ||| signBit else lop.type) &&& 0x1f = 0 := by
      split <;> simp [h0]
    obtain rfl := checks_eq_ok h
    exact ⟨k, or_code_class k _ h0'⟩
  case enum signed =>
    obtain ⟨-, rfl⟩ := h
    exact ⟨.int, by cases signed <;> simp [or_code_class _ _ h0]⟩
  case enum64 signed =>
    obtain ⟨-, rfl⟩ := h
    exact ⟨.long, by cases signed <;> simp [or_code_class _ _ h0]⟩

/-- The loop of `emit_load`, started without a size class on a type of a
well-formed database, returns a load with one. -/
theorem emitLoadLoop_class {btf : Btf} (hwf : btf.WellFormed) :
    ∀ {fuel : Nat} {t : Ty} {lop l : MetaLoad}, t ∈ btf.types → lop.type &&& 0x1f = 0 →
      emitLoadLoop btf fuel t lop = .ok l → ∃ k : MetaType, l.type &&& 0x1f = k.code
  | 0, _, _, _, _, _, h => nomatch h
  | fuel + 1, t, lop, l, ht, h0, h => by
    obtain ⟨lop', hstep, h⟩ := bind_eq_ok.1 h
    cases hn : btf.next t with
    | some t' =>
      rw [hn] at h
      have hid : t.typeId.isSome := by
        cases hid : t.typeId <;> simp [Btf.next, hid] at hn ⊢
      exact emitLoadLoop_class hwf (Btf.next_mem hn) (emitLoadStep_class hid hstep ▸ h0) h
    | none =>
      rw [hn, pure_eq_ok] at h
      exact h ▸ emitLoadStep_base (Btf.next_eq_none hwf ht hn) h0 hstep

theorem setMask_type {lop l : MetaLoad} {mask : UInt64} (h : setMask lop mask = .ok l) :
    l.type = lop.type := by
  unfold setMask at h
  split_ifs at h <;> simp at h <;> simp [← h]

theorem setOffset_eq_ok {lop l : MetaLoad} {offt bfs : UInt32} :
    setOffset lop offt bfs = .ok l ↔
      bfs.toNat < UInt8.size ∧ offt.toNat < UInt16.size ∧
        l = { lop with bfSize := UInt8.ofNat bfs.toNat,
                       offt := if bfs = 0 then UInt16.ofNat offt.toNat / 8
                               else UInt16.ofNat offt.toNat } := by
  simp only [setOffset, u8TryFrom, u16TryFrom, bind_eq_ok]
  split <;> split <;> [skip; simp_all; simp_all; simp_all]
  by_cases hb : bfs = 0 <;> simp [hb, eq_comm, *]

/-- In a well-formed database, every load `emit_load` returns for a type of the
database has a size class. -/
theorem emitLoad_class {btf : Btf} (hwf : btf.WellFormed) {fuel : Nat} {type : Ty}
    (htype : type ∈ btf.types) {offt bfs : UInt32} {mask : UInt64} {l : MetaLoad}
    (h : emitLoad btf fuel type offt bfs mask = .ok l) :
    ∃ k : MetaType, l.type &&& 0x1f = k.code := by
  unfold emitLoad at h
  split at h
  · simp at h
  simp only [bind_eq_ok] at h
  obtain ⟨-, -, lop, hloop, lop', hmask, hoff⟩ := h
  obtain ⟨k, hk⟩ := emitLoadLoop_class hwf htype (by decide) hloop
  refine ⟨k, ?_⟩
  rw [(setOffset_eq_ok.1 hoff).2.2, ← hk, ← setMask_type hmask]

end MetaOp

/-- A byte offset of 8192, as the bit offset 65536 of a `u32` leaf: the load is
rejected, where a pointer at the same offset is not. -/
theorem emitLoad_byte_8192 :
    MetaOp.emitLoad loopBtf 2 (.int 4 false) 65536 0 0 = .error tryFromIntError ∧
      MetaOp.emitLoadPtr 65536 0 = .ok ⟨ptrBit, 0, 8192, 0, 0⟩ :=
  ⟨rfl, rfl⟩

/-- A database with an array of four unsigned enums. -/
def enumArrayBtf : Btf := ⟨[.void, .enum false, .array 1 4], []⟩

theorem emitLoad_enum_array :
    MetaOp.emitLoad enumArrayBtf 3 (.array 1 4) 0 0 0 = .ok ⟨MetaType.int.code, 4, 0, 0, 0⟩ :=
  rfl

end Retis
