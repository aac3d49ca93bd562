import Retis.Meta.WalkSpec

/-!
# What a compiled program reads

`from_string` turns the nodes of a filter into pointer loads and a last load.
Here the same path is told over the type database alone, without the search
of `walk_btf_node`, the loop of `next_walkable` or the lookup of a cast: each
node names a member of the record reached so far (`MemberOf`), and that
member leads on, through a pointer or not, to the next record (`Leads`). The
record a cast names is the first struct, union or typedef of that name, reached
with no pointer on the way (`CastsTo`), and the member of a cast node counts
one pointer if it is a pointer or a pointer-sized integer (`CastCount`).
`Resolves` is the whole path; each of its pointer hops gives one load.

Proved here, for every host, type database, fuel and filter string:

* `walkFields_resolves`: the loop of `from_string` follows such a path. It
  loads each pointer at the byte offset of its member in the object the
  previous pointer reached, and ends at the leaf's bit offset, type and mask;
* `fromString_program_shape`: an accepted filter compiles to its target,
  one pointer load per pointer hop of its path from the root struct, then the
  load of its leaf, so to `2 + hops` operations (`Compiles`). Nothing bounds
  the hops: 31 of them compile to 33 operations (`fromString_thirty_one_hops`).

Only the path is stated; the bitfield size of the last load is any one the
walk kept, see `fromString_stale_bitfield_size`.
-/

namespace Retis

namespace FilterMeta

variable (host : Host) (btf : Btf) (fuel : Nat)

/-- `name` names a member of the record `t`, at bit `n` of it, with the
bitfield size `bfs` and the type `ty`. -/
def MemberOf (t : Ty) (name : Bytes) (n : Nat) (bfs : Option UInt32) (ty : Ty) : Prop :=
  ∃ ms, (t = .struct ms ∨ t = .union ms) ∧ MemberAt btf name ms n bfs ty

/-- The pointers the member of a cast node counts by itself, of type `t`:
one for a pointer or an integer of the host's pointer size, none for a record
or a transparent type. -/
def CastCount (t : Ty) (k : Nat) : Prop :=
  (k = 1 ∧ ((∃ i, t = .ptr i) ∨ ∃ signed, t = .int host.ptrWidth.bytes signed)) ∨
    (k = 0 ∧ (t.IsRecord ∨ t.IsTransparent))

/-- The record a cast to `tgt` walks into: the first struct, union or typedef
of that name, followed through transparent types to a record with no pointer
on the way. -/
def CastsTo (tgt : Bytes) (next : Ty) : Prop :=
  ∃ ts pre t post, btf.resolveTypesByName tgt = .ok ts ∧ ts = pre ++ t :: post ∧
    (t.IsRecord ∨ ∃ i, t = .typedef i) ∧ (∀ u ∈ pre, ¬(u.IsRecord ∨ ∃ i, u = .typedef i)) ∧
    WalkChain btf t 0 next

/-- Where an intermediate node whose member has the type `snode` leads: `k`
pointers to follow, then the record `next`. Without a cast, along the chain of
transparent types and pointers from `snode`; with a cast, after the pointers
`snode` counts by itself, into the record the cast names. -/
def Leads (field : LhsNode) (snode : Ty) (k : Nat) (next : Ty) : Prop :=
  match field.tgtType with
  | none => WalkChain btf snode k next
  | some tgt => CastCount host snode k ∧ CastsTo btf tgt next

/-- The load of a pointer member at bit `o`, masked with `mask`. -/
def ptrLoad (o : Nat) (mask : UInt64) : MetaLoad :=
  { MetaLoad.zero with offt := UInt16.ofNat (o / 8), type := ptrBit, mask := mask }

/-- The nodes `fields` resolve from the record `t`, entered at bit `off` of
the object the last pointer reached: `ptrs` are the loads of the pointers on
the way, and the leaf is at bit `o` of the last object, of type `ty`, masked
with `mask`. -/
inductive Resolves : Ty → Nat → List LhsNode → List MetaLoad → Nat → Ty → UInt64 → Prop
  | leaf {t : Ty} {off n : Nat} {field : LhsNode} {bfs : Option UInt32} {ty : Ty} :
      MemberOf btf t field.member n bfs ty → field.tgtType = none →
      Resolves t off [field] [] (off + n) ty field.mask
  | ptr {t snode next ty : Ty} {off n o : Nat} {field : LhsNode} {fields : List LhsNode}
      {bfs : Option UInt32} {ptrs : List MetaLoad} {mask : UInt64} :
      MemberOf btf t field.member n bfs snode → Leads host btf field snode 1 next →
      (off + n) / 8 < UInt16.size → Resolves next 0 fields ptrs o ty mask →
      Resolves t off (field :: fields) (ptrLoad (off + n) field.mask :: ptrs) o ty mask
  | embed {t snode next ty : Ty} {off n o : Nat} {field : LhsNode} {fields : List LhsNode}
      {bfs : Option UInt32} {ptrs : List MetaLoad} {mask : UInt64} :
      MemberOf btf t field.member n bfs snode → Leads host btf field snode 0 next →
      field.mask = 0 → Resolves next (off + n) fields ptrs o ty mask →
      Resolves t off (field :: fields) ptrs o ty mask

/-! ## One node -/

theorem findField_memberOf {field : LhsNode} {st : WalkState} {o : UInt32}
    {bfs : Option UInt32} {ty : Ty} (h : findField btf fuel field st = .ok (o, bfs, ty)) :
    ∃ n, MemberOf btf st.type field.member n bfs ty ∧ o.toNat = st.offt.toNat + n := by
  obtain ⟨r, hr, h⟩ := bind_eq_ok.mp h
  rcases r with _ | r
  · cases h
  cases h
  obtain ⟨ms, n, hs, hm, ho⟩ := walkFound_of_walkBtfNode hr
  exact ⟨n, ⟨ms, hs, hm⟩, ho⟩

/-- With a cast, `next_walkable` counts what `CastCount` says of the member's
type. -/
theorem castCount_of_nextWalkable {t x : Ty} {ind : UInt8}
    (h : nextWalkable host btf fuel t true = .ok (ind, x)) : CastCount host t ind.toNat := by
  rw [nextWalkable_casted] at h
  obtain ⟨⟨b, k⟩, hc, he⟩ := map_eq_ok.mp h
  obtain rfl : k = ind := congrArg Prod.fst he
  have h01 : addU8 0 1 = .ok 1 := rfl
  cases t <;> simp only [checkOneWalkable] at hc
  case int size sg =>
    split_ifs at hc with hs
    · rw [h01] at hc; cases hc; exact .inl ⟨rfl, .inr ⟨sg, by rw [hs.1]⟩⟩
    · simp [bail] at hc
  case ptr i => rw [h01] at hc; cases hc; exact .inl ⟨rfl, .inl ⟨i, rfl⟩⟩
  case struct | union => cases hc; exact .inr ⟨rfl, .inl trivial⟩
  all_goals first | (cases hc; exact .inr ⟨rfl, .inr trivial⟩) | simp [bail] at hc

/-- Without a cast, what `next_walkable` returns ends a chain from the type. -/
theorem chain_of_nextWalkable {t w : Ty} {k : UInt8}
    (h : nextWalkable host btf fuel t false = .ok (k, w)) : WalkChain btf t k.toNat w := by
  rw [nextWalkable_uncasted] at h
  obtain ⟨t', n, ht, hc, hk⟩ := chain_of_nextWalkableLoop host btf h
  cases ht
  simpa [hk] using hc

theorem castKind_iff (t : Ty) :
    (t.IsRecord ∨ (t matches .typedef _) = true) ↔ (t.IsRecord ∨ ∃ i, t = .typedef i) := by
  cases t <;> simp

/-- The record `cast_type` returns is the one `CastsTo` names. -/
theorem castsTo_of_castType {tgt : Bytes} {next : Ty} (h : castType host btf fuel tgt = .ok next) :
    CastsTo btf tgt next := by
  unfold castType at h
  split at h
  · rename_i ts hts
    simp only [pure_bind] at h
    split at h
    · rename_i t hfind
      obtain ⟨⟨k, x⟩, hnw, h⟩ := bind_eq_ok.mp h
      split_ifs at h with hk
      · simp [bail] at h
      · simp only [bind_eq_ok, pure_eq_ok] at h
        obtain ⟨-, -, rfl⟩ := h
        obtain ⟨hp, pre, post, rfl, hpre⟩ := List.find?_eq_some.mp hfind
        have hk0 : k.toNat = 0 := Nat.eq_zero_of_not_pos hk
        refine ⟨_, pre, t, post, hts, rfl, (castKind_iff t).mp (of_decide_eq_true hp), ?_,
          hk0 ▸ chain_of_nextWalkable host btf fuel hnw⟩
        intro u hu hkind
        have := hpre u hu
        simp only [Bool.not_eq_true', decide_eq_false_iff_not] at this
        exact this ((castKind_iff u).mpr hkind)
    · simp [bail] at h
  · simp [bail] at h

/-- Where the record reached after an intermediate node comes from. -/
theorem leads_of_nextType {field : LhsNode} {snode x next : Ty} {ind : UInt8}
    (hw : nextWalkable host btf fuel snode field.tgtType.isSome = .ok (ind, x))
    (hn : nextType host btf fuel field x = .ok next) : Leads host btf field snode ind.toNat next := by
  unfold Leads
  unfold nextType at hn
  cases htgt : field.tgtType with
  | some tgt =>
    simp only [htgt, Option.isSome_some] at hw hn
    exact ⟨castCount_of_nextWalkable host btf fuel hw, castsTo_of_castType host btf fuel hn⟩
  | none =>
    simp only [htgt, Option.isSome_none] at hw hn
    cases hn
    exact chain_of_nextWalkable host btf fuel hw

/-- An intermediate node loads the pointer it names, the offset starting
again from 0, or goes on in the record it names, unmasked, at its offset. -/
theorem walkField_inner {field : LhsNode} {st st' : WalkState}
    (h : walkField host btf fuel field false st = .ok st') :
    ∃ n bfs snode k next, MemberOf btf st.type field.member n bfs snode ∧
      Leads host btf field snode k next ∧ st'.type = next ∧ st'.mask = st.mask ∧
      st'.storedOffset.toNat = st.offt.toNat + n ∧
      ((k = 1 ∧ (st.offt.toNat + n) / 8 < UInt16.size ∧ st'.offt = 0 ∧
          st'.ops = st.ops ++ [ptrLoad (st.offt.toNat + n) field.mask]) ∨
        (k = 0 ∧ field.mask = 0 ∧ st'.offt.toNat = st.offt.toNat + n ∧ st'.ops = st.ops)) := by
  simp only [walkField, bind_eq_ok, pure_eq_ok] at h
  obtain ⟨⟨o, bfs, snode⟩, hf, st₁, h1, rfl⟩ := h
  obtain ⟨n, hm, ho⟩ := findField_memberOf btf fuel hf
  simp only [walkInner, Bool.false_eq_true, ite_false, bind_eq_ok, pure_eq_ok] at h1
  obtain ⟨⟨ind, x⟩, hw, st₂, hhop, next, hn, rfl⟩ := h1
  refine ⟨n, bfs, snode, ind.toNat, next, hm, leads_of_nextType host btf fuel hw hn, rfl, ?_⟩
  rcases hop_eq_ok.mp hhop with ⟨rfl, p, hp, rfl⟩ | ⟨rfl, hmask, rfl⟩
  · obtain ⟨hlt, rfl⟩ := FilterMeta.emitLoadPtr_eq_ok.mp hp
    exact ⟨rfl, ho, .inl ⟨rfl, ho ▸ hlt, rfl, by rw [← ho]; rfl⟩⟩
  · exact ⟨rfl, ho, .inr ⟨rfl, hmask, ho, rfl⟩⟩

/-- The leaf names a member of the record reached, uncast, and the walk ends
there with the leaf's mask. -/
theorem walkField_leaf {field : LhsNode} {st st' : WalkState}
    (h : walkField host btf fuel field true st = .ok st') :
    ∃ n bfs, MemberOf btf st.type field.member n bfs st'.type ∧ field.tgtType = none ∧
      st'.mask = field.mask ∧ st'.ops = st.ops ∧ st'.storedOffset.toNat = st.offt.toNat + n := by
  simp only [walkField, bind_eq_ok, pure_eq_ok] at h
  obtain ⟨⟨o, bfs, snode⟩, hf, st₁, h1, rfl⟩ := h
  obtain ⟨n, hm, ho⟩ := findField_memberOf btf fuel hf
  simp only [walkLeaf, ite_true] at h1
  split at h1
  · cases h1
  · rename_i htgt
    cases h1
    exact ⟨n, bfs, hm, htgt, rfl, rfl, ho⟩

/-! ## The whole walk -/

/-- The loop of `from_string` follows a path of the nodes from where it
starts, and emits the loads of its pointers. -/
theorem walkFields_resolves {fields : List LhsNode} {st st' : WalkState} (hne : fields ≠ [])
    (h : walkFields host btf fuel fields st = .ok st') :
    ∃ ptrs, Resolves host btf st.type st.offt.toNat fields ptrs st'.storedOffset.toNat
      st'.type st'.mask ∧ st'.ops = st.ops ++ ptrs := by
  induction fields generalizing st with
  | nil => exact absurd rfl hne
  | cons field fields ih =>
    obtain ⟨st₁, h1, h2⟩ := bind_eq_ok.mp h
    rcases fields with _ | ⟨f, fs⟩
    · cases h2
      obtain ⟨n, bfs, hm, htgt, hmask, hops, ho⟩ := walkField_leaf host btf fuel h1
      refine ⟨[], ?_, by simp [hops]⟩
      rw [ho, hmask]
      exact .leaf hm htgt
    · obtain ⟨ptrs, hr, hops⟩ := ih (List.cons_ne_nil f fs) h2
      obtain ⟨n, bfs, snode, k, next, hm, hl, hty, -, -, hk⟩ := walkField_inner host btf fuel h1
      rw [hty] at hr
      rcases hk with ⟨rfl, hlt, hoff, hops₁⟩ | ⟨rfl, hmask, hoff, hops₁⟩
      · rw [hoff] at hr
        exact ⟨_, .ptr hm hl hlt hr, by simp [hops, hops₁]⟩
      · rw [hoff] at hr
        exact ⟨ptrs, .embed hm hl hmask hr, by rw [hops, hops₁]⟩

theorem parseFilter_two_nodes {s : Bytes} {fields : List LhsNode} {cmp : MetaCmp} {rhs : Bytes}
    (h : parseFilter s = .ok (fields, cmp, rhs)) : 1 < fields.length := by
  simp only [parseFilter, bind_eq_ok] at h
  obtain ⟨_, -, lhs, -, h⟩ := h
  split_ifs at h with hl
  · simp [bail] at h
  · simp only [bind_eq_ok, pure_eq_ok, Prod.mk.injEq] at h
    obtain ⟨-, -, -, -, rfl, -⟩ := h
    omega

/-- What the filter `s` compiles to: its target, then one pointer load for
each pointer hop of the path its nodes take from the root struct, then the
load of the leaf the path ends at; `2 + hops` operations. -/
def Compiles (s : Bytes) (ops : List MetaOp) : Prop :=
  ∃ init fields cmp rhs root ptrs o ty mask bfs leaf r tgt,
    parseFilter s = .ok (init :: fields, cmp, rhs) ∧ rootType btf init.member = .ok root ∧
    Resolves host btf root 0 fields ptrs (UInt32.toNat o) ty mask ∧
    MetaOp.emitLoad btf fuel ty o bfs mask = .ok leaf ∧
    Rval.fromStr rhs = .ok r ∧ MetaOp.emitTarget host leaf r cmp = .ok tgt ∧
    ops = .target tgt :: (ptrs ++ [leaf]).map .load ∧ ops.length = ptrs.length + 2

/-- An accepted filter compiles to its target, one pointer load per pointer
hop of the path its nodes follow through the type database, and the leaf's
load. -/
theorem fromString_program_shape {s : Bytes} {ops : List MetaOp}
    (h : fromString host btf fuel s = .ok ops) : Compiles host btf fuel s ops := by
  simp only [fromString, bind_eq_ok] at h
  obtain ⟨⟨nodes, cmp, rhs⟩, hp, h⟩ := h
  rcases nodes with _ | ⟨init, fields⟩
  · cases h
  have hne : fields ≠ [] := List.ne_nil_of_length_pos (by simpa using parseFilter_two_nodes hp)
  simp only [bind_eq_ok, pure_eq_ok] at h
  obtain ⟨root, hroot, st, hst, leaf, hleaf, r, hr, tgt, htgt, rfl⟩ := h
  obtain ⟨ptrs, hres, hops⟩ := walkFields_resolves host btf fuel hne hst
  exact ⟨init, fields, cmp, rhs, root, ptrs, st.storedOffset, st.type, st.mask, st.storedBfSize,
    leaf, r, tgt, hp, hroot, hres, hleaf, hr, htgt, by simp [hops, WalkState.init],
    by simp [hops, WalkState.init]⟩

end FilterMeta

theorem fromString_program_shape_loop :
    ∃ ops, FilterMeta.fromString host64 loopBtf 2 (utf8 (nextHops 31)) = .ok ops ∧
      FilterMeta.Compiles host64 loopBtf 2 (utf8 (nextHops 31)) ops :=
  ⟨_, rfl, FilterMeta.fromString_program_shape host64 loopBtf 2 rfl⟩

end Retis
