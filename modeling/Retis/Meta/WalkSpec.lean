import Retis.Meta.FilterSpec

/-!
# Finding a member

`walk_btf_node` searches a record's members in order, entering anonymous
records. An unnamed member that is not a record (unnamed bitfield padding,
`int :3;`) does not hold the name, but the search returns `None` there
instead of going on: a member declared after padding is never found
(`walkBtfNode_stops_at_padding`), and a filter naming it is rejected. What it
does return is right (`walkBtfNode_sound`): a member of that name, declared in
the record or in anonymous records inside it (`MemberAt`), at the bit offset
it was given plus the member's offsets along the way.

`next_walkable` follows a member's type to the record a filter walks into.
Without a cast it follows the chain of transparent types and pointers that
`type_iter` yields, stated as the relation `WalkChain`; with a cast it looks
at the member's type alone. Proved here, for every host, type database and
type:

* `nextWalkable_uncasted_ok_iff`: without a cast, `next_walkable` returns
  `(k, w)` exactly when a chain with `k` pointers leads to the record `w`;
* `hop_eq_ok`: the node's step loads a pointer when `k = 1`, stays in the
  record when `k = 0` and no mask is given, and fails otherwise;
* `nextWalkable_casted`, `nextWalkable_casted_transparent`: with a cast, the
  count is that of the member's type alone, so a typedef of `unsigned long`
  counts no pointer and the cast is rejected
  (`nextWalkable_casted_typedef_skips_pointer`).
-/

namespace Retis

/-- An `sk_buff` with three bits of unnamed padding before `mark`. -/
def paddedSkBuff : Ty := .struct [⟨[], 2, 0, some 3⟩, ⟨utf8 "mark", 1, 32, none⟩]

/-- A database holding `paddedSkBuff`. -/
def paddedBtf : Btf := ⟨[.void, .int 4 false, .int 1 false, paddedSkBuff], [(utf8 "sk_buff", 3)]⟩

theorem walkBtfNode_stops_at_padding :
    walkBtfNode paddedBtf (utf8 "mark") 2 paddedSkBuff 0 = .ok none ∧
      ∃ msg, FilterMeta.fromString host64 paddedBtf 2 (utf8 "sk_buff.mark == 1") =
        .error (.error msg) :=
  ⟨rfl, _, rfl⟩

/-! ## What the search returns -/

section Member

variable (btf : Btf) (name : Bytes)

/-- `name` names a member of the record whose members are `ms`, found there or
inside anonymous records, at bit `o` from the record's start, with the
bitfield size `bfs` and the type `ty` its type id resolves to. -/
inductive MemberAt : List Member → Nat → Option UInt32 → Ty → Prop
  | here {ms : List Member} {m : Member} {ty : Ty} : m ∈ ms → m.name = name →
      btf.resolveChainedType m = some ty → MemberAt ms m.bitOffset.toNat m.bitfieldSize ty
  | inner {ms inner : List Member} {m : Member} {s : Ty} {o : Nat} {bfs : Option UInt32}
      {ty : Ty} : m ∈ ms → m.name = [] → btf.resolveChainedType m = some s →
      (s = .struct inner ∨ s = .union inner) → MemberAt inner o bfs ty →
      MemberAt ms (m.bitOffset.toNat + o) bfs ty

variable {btf name} in
theorem MemberAt.mono {ms ms' : List Member} {o : Nat} {bfs : Option UInt32} {ty : Ty}
    (h : MemberAt btf name ms o bfs ty) (hsub : ms ⊆ ms') : MemberAt btf name ms' o bfs ty := by
  cases h with
  | here hm hn hr => exact .here (hsub hm) hn hr
  | inner hm hn hr hs hi => exact .inner (hsub hm) hn hr hs hi

/-- What a walk of the record `s` from bit `off` found: a member of `s`, at
bit `off` plus its offset in `s`. -/
def WalkFound (s : Ty) (off o : UInt32) (bfs : Option UInt32) (ty : Ty) : Prop :=
  ∃ ms n, (s = .struct ms ∨ s = .union ms) ∧ MemberAt btf name ms n bfs ty ∧
    o.toNat = off.toNat + n

variable {btf name}

/-- The member loop returns only members of the list, at the offset it
reports, when the walk it enters anonymous records with does. -/
theorem walkMembers_sound {walk : Ty → UInt32 → Res (Option SubNode)}
    (hwalk : ∀ {s off o bfs ty}, walk s off = .ok (some (o, bfs, ty)) →
      WalkFound btf name s off o bfs ty)
    {offset o : UInt32} {bfs : Option UInt32} {ty : Ty} {ms : List Member}
    (h : walkMembers btf name walk offset ms = .ok (some (o, bfs, ty))) :
    ∃ n, MemberAt btf name ms n bfs ty ∧ o.toNat = offset.toNat + n := by
  induction ms with
  | nil => simp [walkMembers] at h
  | cons m ms ih =>
    have later : ∀ {n}, MemberAt btf name ms n bfs ty → MemberAt btf name (m :: ms) n bfs ty :=
      fun hm => hm.mono (List.subset_cons_self _ _)
    simp only [walkMembers] at h
    split_ifs at h with hname hanon
    · split at h
      · rename_i ty' hres
        obtain ⟨o', ho', h⟩ := bind_eq_ok.1 h
        simp only [pure_eq_ok, Option.some.injEq, Prod.mk.injEq] at h
        obtain ⟨rfl, rfl, rfl⟩ := h
        exact ⟨_, .here (List.mem_cons_self _ _) hname hres, (addU32_eq_ok.1 ho').2⟩
      · simp at h
    · split at h
      · simp at h
      · rename_i s hres
        split_ifs at h with hrec
        · obtain ⟨o', ho', h⟩ := bind_eq_ok.1 h
          obtain ⟨r, hr, h⟩ := bind_eq_ok.1 h
          split at h
          · simp only [pure_eq_ok, Option.some.injEq] at h
            subst h
            obtain ⟨inner, n, hs, hin, hn⟩ := hwalk hr
            refine ⟨_, .inner (List.mem_cons_self _ _) hanon hres hs hin, ?_⟩
            rw [hn, (addU32_eq_ok.1 ho').2, Nat.add_assoc]
          · obtain ⟨n, hn, ho⟩ := ih h
            exact ⟨n, later hn, ho⟩
        · simp at h
    · obtain ⟨n, hn, ho⟩ := ih h
      exact ⟨n, later hn, ho⟩

end Member

theorem walkFound_of_walkBtfNode {btf : Btf} {name : Bytes} {fuel : Nat} {t : Ty}
    {offset o : UInt32} {bfs : Option UInt32} {ty : Ty}
    (h : walkBtfNode btf name fuel t offset = .ok (some (o, bfs, ty))) :
    WalkFound btf name t offset o bfs ty := by
  induction fuel generalizing t offset o bfs ty with
  | zero => cases h
  | succ fuel ih =>
    cases t
    case struct ms =>
      obtain ⟨n, hn, ho⟩ := walkMembers_sound (ih ·) h
      exact ⟨_, n, .inl rfl, hn, ho⟩
    case union ms =>
      obtain ⟨n, hn, ho⟩ := walkMembers_sound (ih ·) h
      exact ⟨_, n, .inr rfl, hn, ho⟩
    all_goals simp [walkBtfNode] at h

/-- `walk_btf_node` returns only a member of the record it searches, named as
asked, found there or inside anonymous records, with the bit offset it
reports: the offset it was given plus the member's offset in the record. -/
theorem walkBtfNode_sound {btf : Btf} {name : Bytes} {fuel : Nat} {t : Ty}
    {offset o : UInt32} {bfs : Option UInt32} {ty : Ty}
    (h : walkBtfNode btf name fuel t offset = .ok (some (o, bfs, ty))) :
    WalkFound btf name t offset o bfs ty :=
  walkFound_of_walkBtfNode h

/-- An `sk_buff` holding `mark` inside an anonymous union at bit 32. -/
def anonSkBuff : Ty := .struct [⟨[], 2, 32, none⟩]

/-- A database holding `anonSkBuff`. -/
def anonBtf : Btf :=
  ⟨[.void, .int 4 false, .union [⟨utf8 "mark", 1, 0, none⟩], anonSkBuff], [(utf8 "sk_buff", 3)]⟩

theorem walkBtfNode_anonBtf :
    walkBtfNode anonBtf (utf8 "mark") 2 anonSkBuff 0 = .ok (some (32, none, .int 4 false)) ∧
      WalkFound anonBtf (utf8 "mark") anonSkBuff 0 32 none (.int 4 false) :=
  ⟨rfl, @walkBtfNode_sound _ _ 2 _ _ _ _ _ rfl⟩

/-! ## The chain `next_walkable` follows -/

namespace FilterMeta

/-- From `t`, transparent types and pointers, each followed to the type it
refers to, lead to the record `w`, with `k` pointers on the way. -/
inductive WalkChain (btf : Btf) : Ty → Nat → Ty → Prop
  | record {t : Ty} : t.IsRecord → WalkChain btf t 0 t
  | transparent {t u w : Ty} {k : Nat} : t.IsTransparent → btf.next t = some u →
      WalkChain btf u k w → WalkChain btf t k w
  | ptr {i : Nat} {u w : Ty} {k : Nat} : btf.next (.ptr i) = some u →
      WalkChain btf u k w → WalkChain btf (.ptr i) (k + 1) w

variable (host : Host) (btf : Btf)

/-- Without a cast, `check_one_walkable` passes a transparent type, counts a
pointer, stops at a record and fails on every other type. -/
theorem checkOneWalkable_uncasted_eq_ok {t : Ty} {ind ind' : UInt8} {b : Bool} :
    checkOneWalkable host t ind false = .ok (b, ind') ↔
      (t.IsRecord ∧ b = true ∧ ind' = ind) ∨ (t.IsTransparent ∧ b = false ∧ ind' = ind) ∨
        ∃ i, t = .ptr i ∧ ind.toNat + 1 < UInt8.size ∧ ind'.toNat = ind.toNat + 1 ∧ b = false := by
  cases t <;>
    simp [checkOneWalkable, Ty.IsRecord, Ty.IsTransparent, addU8_eq_ok, and_assoc, eq_comm (a := ind')]

/-- Without a cast, `next_walkable` is its loop started at the type itself. -/
theorem nextWalkable_uncasted (fuel : Nat) (t : Ty) :
    nextWalkable host btf fuel t false = nextWalkableLoop host btf false (fuel + 1) (some t) 0 := by
  cases t <;> simp [nextWalkable, nextWalkableLoop, checkOneWalkable, Ty.isBtfType] <;> rfl

/-- What the loop returns is the end of a chain from where it started. -/
theorem chain_of_nextWalkableLoop {fuel : Nat} {x : Option Ty} {ind k : UInt8} {w : Ty}
    (h : nextWalkableLoop host btf false fuel x ind = .ok (k, w)) :
    ∃ t n, x = some t ∧ WalkChain btf t n w ∧ k.toNat = ind.toNat + n := by
  induction fuel generalizing x ind with
  | zero => cases x <;> cases h
  | succ fuel ih =>
    rcases x with _ | t
    · cases h
    simp only [nextWalkableLoop, bind_eq_ok, Prod.exists] at h
    obtain ⟨b, ind', hc, h⟩ := h
    rcases (checkOneWalkable_uncasted_eq_ok host).1 hc with
      ⟨hr, rfl, rfl⟩ | ⟨ht, rfl, rfl⟩ | ⟨i, rfl, -, hind, rfl⟩
    · cases h
      exact ⟨_, 0, rfl, .record hr, rfl⟩
    · obtain ⟨u, n, hu, hch, hk⟩ := ih h
      exact ⟨t, n, rfl, .transparent ht hu hch, hk⟩
    · obtain ⟨u, n, hu, hch, hk⟩ := ih h
      exact ⟨_, n + 1, rfl, .ptr hu hch, by omega⟩

/-- The loop passes a type the check does not stop at, on to the type it
refers to. -/
theorem nextWalkableLoop_pass {fuel : Nat} {t : Ty} {ind ind' : UInt8}
    (hc : checkOneWalkable host t ind false = .ok (false, ind')) :
    nextWalkableLoop host btf false (fuel + 1) (some t) ind =
      nextWalkableLoop host btf false fuel (btf.next t) ind' := by
  simp only [nextWalkableLoop, hc]; rfl

/-- The loop returns the end of every chain whose pointers the `u8` count
holds. -/
theorem nextWalkableLoop_of_chain {t w : Ty} {n : Nat} (hc : WalkChain btf t n w) :
    ∀ ind : UInt8, ind.toNat + n < UInt8.size →
      ∃ fuel k, nextWalkableLoop host btf false (fuel + 1) (some t) ind = .ok (k, w) ∧
        k.toNat = ind.toNat + n := by
  induction hc with
  | record hr =>
    intro ind _
    refine ⟨0, ind, ?_, rfl⟩
    simp only [nextWalkableLoop, (checkOneWalkable_uncasted_eq_ok host).2 (.inl ⟨hr, rfl, rfl⟩)]
    rfl
  | transparent ht hu _ ih =>
    intro ind hn
    obtain ⟨fuel, k, h, hk⟩ := ih ind hn
    refine ⟨fuel + 1, k, ?_, hk⟩
    rw [nextWalkableLoop_pass host btf
      ((checkOneWalkable_uncasted_eq_ok host).2 (.inr (.inl ⟨ht, rfl, rfl⟩))), hu, h]
  | @ptr i u w n hu _ ih =>
    intro ind hn
    have hlt : ind.toNat + 1 < UInt8.size := by omega
    have hind := UInt8.toNat_ofNat_of_lt hlt
    obtain ⟨fuel, k, h, hk⟩ := ih (UInt8.ofNat (ind.toNat + 1)) (by omega)
    refine ⟨fuel + 1, k, ?_, by omega⟩
    rw [nextWalkableLoop_pass host btf
      ((checkOneWalkable_uncasted_eq_ok host).2 (.inr (.inr ⟨i, rfl, hlt, hind, rfl⟩))), hu, h]

/-- Without a cast, `next_walkable` returns `(k, w)` exactly when a chain
with `k` pointers leads from `t` to the record `w`; a chain of more pointers
than a `u8` counts gives no result. -/
theorem nextWalkable_uncasted_ok_iff {t w : Ty} {k : UInt8} :
    (∃ fuel, nextWalkable host btf fuel t false = .ok (k, w)) ↔ WalkChain btf t k.toNat w := by
  simp only [nextWalkable_uncasted]
  constructor
  · rintro ⟨fuel, h⟩
    obtain ⟨t', n, ht, hc, hk⟩ := chain_of_nextWalkableLoop host btf h
    cases ht
    simpa [hk] using hc
  · intro hc
    obtain ⟨fuel, k', h, hk⟩ :=
      nextWalkableLoop_of_chain host btf hc 0 (by simpa using k.toNat_lt_size)
    have : k' = k := UInt8.toNat.inj (by simpa using hk)
    exact ⟨fuel, this ▸ h⟩

/-- An intermediate node loads a pointer after one indirection, stays in the
record after none when no mask is given, and is rejected otherwise. -/
theorem hop_eq_ok {field : LhsNode} {offset : UInt32} {ind : UInt8} {st st' : WalkState} :
    hop field offset ind st = .ok st' ↔
      (ind = 1 ∧ ∃ p, MetaOp.emitLoadPtr offset field.mask = .ok p ∧
        st' = { st with offt := 0, ops := st.ops ++ [p] }) ∨
      (ind = 0 ∧ field.mask = 0 ∧ st' = { st with offt := offset }) := by
  unfold hop
  by_cases h1 : ind = 1
  · simp [h1, eq_comm (a := st')]
  · by_cases h0 : ind = 0
    · subst h0
      by_cases hm : field.mask = 0 <;> simp [hm, eq_comm, bail]
    · have hgt : ind > 1 := by
        have h0' : ind.toNat ≠ 0 := fun h => h0 (UInt8.toNat.inj h)
        have h1' : ind.toNat ≠ 1 := fun h => h1 (UInt8.toNat.inj h)
        show 1 < ind.toNat
        omega
      simp [h1, h0, hgt, bail]

/-- With a cast, `next_walkable` looks at the member's type alone: the count
is one for a pointer or a pointer-sized integer and nothing for every other
type it accepts, whatever that type refers to. -/
theorem nextWalkable_casted (fuel : Nat) (t : Ty) :
    nextWalkable host btf fuel t true = (fun r => (r.2, t)) <$> checkOneWalkable host t 0 true := by
  cases t <;> simp [nextWalkable, checkOneWalkable] <;> (try split_ifs) <;> rfl

/-- With a cast, a transparent type counts no indirection, whatever it refers
to. -/
theorem nextWalkable_casted_transparent (fuel : Nat) {t : Ty} (ht : t.IsTransparent) :
    nextWalkable host btf fuel t true = .ok (0, t) := by
  rw [nextWalkable_casted]
  cases t <;> first | rfl | exact ht.elim

end FilterMeta

/-- A database whose `sk_buff` holds at bit 64 a member `ct` whose type is a
typedef of `unsigned long`, and at bit 128 a member `nfct` of type
`unsigned long`; `nf_conn` holds a `u32` at bit 32. -/
def typedefBtf : Btf where
  types :=
    [.void, .int 4 false, .int 8 false, .typedef 2,
      .struct [⟨utf8 "ct", 3, 64, none⟩, ⟨utf8 "nfct", 2, 128, none⟩],
      .struct [⟨utf8 "mark", 1, 32, none⟩]]
  names := [(utf8 "sk_buff", 4), (utf8 "nf_conn", 5)]

/-- The typedef of `ct` refers to a pointer-sized integer, but with a cast
`next_walkable` counts no indirection for it: the cast through `nfct`
compiles, the same cast through `ct` is rejected. -/
theorem nextWalkable_casted_typedef_skips_pointer :
    typedefBtf.next (.typedef 2) = some (.int host64.ptrWidth.bytes false) ∧
      FilterMeta.nextWalkable host64 typedefBtf 2 (.typedef 2) true = .ok (0, .typedef 2) ∧
      (∃ ops, FilterMeta.fromString host64 typedefBtf 2
        (utf8 "sk_buff.nfct:~0x0:nf_conn.mark == 1") = .ok ops) ∧
      FilterMeta.fromString host64 typedefBtf 2 (utf8 "sk_buff.ct:~0x0:nf_conn.mark == 1") =
        .error (.error
          "intermediate members masking is only supported for pointers and unsigned numbers") :=
  ⟨rfl, rfl, ⟨_, rfl⟩, rfl⟩

end Retis
