import Retis.Meta.LoadSpec

/-!
# The target of a comparison

`from_string` classifies the right-hand side with `Rval::from_str` and builds
the target with `emit_target`, against the leaf's load. The filter grammar's
right-hand sides are

    rhs    := quoted | "0x" hex+ | "-"? digit+
    quoted := "'" chars "'" | '"' chars '"'

Proved here:

* `fromStr_text`: `Rval::from_str` classifies every token of the grammar by
  its rule: the inside of the quotes as a string (the slice never cuts a
  character), the digits after `0x` as hex, the rest as decimal;
* `emitTarget_str`, `emitTarget_num`: what `emit_target` does against a
  pointer or an array, and against a number;
* `emitTarget_rhs_token`: for every load `emit_load` returns from a
  well-formed database, every token and every operator, a target is built
  exactly when the token is a string shorter than the buffer compared by `==`
  or `!=` against a pointer or an array, or an integer in range against a
  number (a negative one only against a signed number). The target then holds
  the operator's code and either the string's bytes or the value's host bytes
  and the load's width, followed by zeros.
-/

namespace Retis

/-! ## Tokens of the right-hand side -/

/-- The value of an ASCII hex digit: `0-9`, `a-f`, `A-F`. -/
def hexDigit (b : UInt8) : Option Nat :=
  if 48 ≤ b.toNat ∧ b.toNat ≤ 57 then some (b.toNat - 48)
  else if 97 ≤ b.toNat ∧ b.toNat ≤ 102 then some (b.toNat - 87)
  else if 65 ≤ b.toNat ∧ b.toNat ≤ 70 then some (b.toNat - 55)
  else none

/-- The value of an ASCII decimal digit. -/
def decDigit (b : UInt8) : Option Nat :=
  if 48 ≤ b.toNat ∧ b.toNat ≤ 57 then some (b.toNat - 48) else none

/-- The value of a numeral in `base`, its digits most significant first. -/
def numeral (digit : UInt8 → Option Nat) (base : Nat) (ds : Bytes) : Nat :=
  digitsValue base 0 (ds.filterMap digit)

/-- The byte width of a size class. -/
def MetaType.width : MetaType → Nat
  | .char => 1
  | .short => 2
  | .int => 4
  | .long => 8

/-- A token of the grammar's `rhs`. -/
inductive RhsToken where
  /-- `chars` between single quotes, or between double quotes when `dq`. -/
  | quoted (dq : Bool) (chars : String)
  /-- `"0x" hex+`: the hex digits. -/
  | hex (digits : Bytes)
  /-- `"-"? digit+`: whether the sign is there, and the digits. -/
  | dec (neg : Bool) (digits : Bytes)
  deriving DecidableEq, Repr

namespace RhsToken

/-- The quote character, `"` or `'`. -/
def quote (dq : Bool) : UInt8 := if dq then 34 else 39

/-- The token as it stands in the filter. -/
def text : RhsToken → Bytes
  | quoted dq c => quote dq :: (utf8 c ++ [quote dq])
  | hex ds => utf8 "0x" ++ ds
  | dec neg ds => (if neg then utf8 "-" else []) ++ ds

/-- The digits are digits of the token's base, and there is one at least. -/
def Valid : RhsToken → Prop
  | quoted .. => True
  | hex ds => ds ≠ [] ∧ ∀ b ∈ ds, (hexDigit b).isSome
  | dec _ ds => ds ≠ [] ∧ ∀ b ∈ ds, (decDigit b).isSome

instance (tok : RhsToken) : Decidable tok.Valid := by
  cases tok <;> unfold Valid <;> infer_instance

/-- The classification the grammar gives the token. -/
def rval : RhsToken → Rval
  | quoted _ c => .str (utf8 c)
  | hex ds => .hex ds
  | dec neg ds => .dec (dec neg ds).text

/-- The tokens a target should be built from, against the load `l` with the
operator `op`: strings for pointers and arrays, integers for the rest. -/
def Accepts (l : MetaLoad) (op : MetaCmp) : RhsToken → Prop
  | quoted _ c => (l.isPtr || l.isArr) = true ∧ (op = .eq ∨ op = .ne) ∧ (utf8 c).length < 32
  | hex ds => (l.isPtr || l.isArr) = false ∧ numeral hexDigit 16 ds < 2 ^ 64
  | dec false ds => (l.isPtr || l.isArr) = false ∧ numeral decDigit 10 ds < 2 ^ 64
  | dec true ds =>
    (l.isPtr || l.isArr) = false ∧ l.isSigned = true ∧ numeral decDigit 10 ds ≤ 2 ^ 63

/-- The target holds the bytes `c`, then zeros, and their number. -/
def HoldsStr (c : Bytes) (top : MetaTarget) : Prop :=
  top.sz.toNat = c.length ∧ top.md.take top.sz.toNat = c ∧ ∀ b ∈ top.md.drop top.sz.toNat, b = 0

/-- The target holds `v` modulo `2 ^ 64` in host byte order, then zeros, and
the width of the size class of `l`. -/
def HoldsNum (host : Host) (l : MetaLoad) (v : Int) (top : MetaTarget) : Prop :=
  (fromNeBytes host.endian (top.md.take 8)).toNat = (v % 2 ^ 64).toNat ∧
    (∀ b ∈ top.md.drop 8, b = 0) ∧
    ∃ k : MetaType, l.type &&& 0x1f = k.code ∧ top.sz.toNat = k.width

/-- What the target built from the token should hold. -/
def Encodes (host : Host) (l : MetaLoad) (op : MetaCmp) (tok : RhsToken) (top : MetaTarget) :
    Prop :=
  top.cmp = op.code ∧
    match tok with
    | quoted _ c => HoldsStr (utf8 c) top
    | hex ds => HoldsNum host l (numeral hexDigit 16 ds) top
    | dec neg ds =>
      HoldsNum host l (if neg then -(numeral decDigit 10 ds : Int) else numeral decDigit 10 ds) top

end RhsToken

/-! ## Classification -/

set_option maxRecDepth 20000 in
theorem toDigit_hex : ∀ b : UInt8, toDigit 16 b.toNat = hexDigit b :=
  forall_uint8 (by decide)

set_option maxRecDepth 20000 in
theorem toDigit_dec : ∀ b : UInt8, toDigit 10 b.toNat = decDigit b :=
  forall_uint8 (by decide)

/-- A pattern holding a byte that is no digit does not start a string of digits. -/
theorem stripPrefix_digits {ds p : Bytes} {digit : UInt8 → Option Nat} {b : UInt8}
    (hd : ∀ b ∈ ds, (digit b).isSome) (hb : b ∈ p) (hx : digit b = none) :
    stripPrefix ds p = none := by
  cases h : stripPrefix ds p with
  | none => rfl
  | some r =>
    rw [stripPrefix_eq_some] at h
    have := hd b (by simp [h, hb])
    simp [hx] at this

/-- A pattern holding a byte that is no digit, and not starting with `+`, does
not start a number. -/
theorem stripPrefix_number {digit : UInt8 → Option Nat} (plus : Bool) {ds p : Bytes}
    (hd : ∀ b ∈ ds, (digit b).isSome) {b : UInt8} (hb : b ∈ p) (hx : digit b = none)
    (hp : p.head? ≠ some 43) :
    stripPrefix ((if plus then utf8 "+" else []) ++ ds) p = none := by
  cases plus
  · exact stripPrefix_digits hd hb hx
  · obtain ⟨q, qs, rfl⟩ := List.exists_cons_of_ne_nil (List.ne_nil_of_mem hb)
    have hq : (43 : UInt8) ≠ q := fun h => hp (by simp [h])
    show stripPrefix (utf8 "+" ++ ds) (q :: qs) = none
    rw [utf8_plus]
    simp only [List.singleton_append, stripPrefix, if_neg hq]

theorem fromStr_text {tok : RhsToken} (h : tok.Valid) : Rval.fromStr tok.text = .ok tok.rval := by
  cases tok with
  | quoted dq c =>
    simp only [Rval.fromStr, utf8_dquote, utf8_squote]
    cases dq <;>
      simp [RhsToken.text, RhsToken.quote, RhsToken.rval, startsWith, endsWith, stripPrefix,
        slice_quoted]
  | hex ds =>
    obtain ⟨-, hd⟩ := h
    simp only [Rval.fromStr, RhsToken.text, RhsToken.rval, utf8_dquote, utf8_squote,
      utf8_hexPrefix]
    rw [trimStartMatches_append (List.cons_ne_nil _ _)
      (stripPrefix_digits hd (List.mem_cons_of_mem _ (List.mem_singleton_self _)) (by decide))]
    simp [startsWith, stripPrefix]
  | dec neg ds =>
    obtain ⟨-, hd⟩ := h
    simp only [Rval.fromStr, RhsToken.text, RhsToken.rval, utf8_dquote, utf8_squote,
      utf8_hexPrefix, utf8_minus]
    cases neg
    · have h34 := stripPrefix_digits hd (List.mem_singleton_self 34) (by decide)
      have h39 := stripPrefix_digits hd (List.mem_singleton_self 39) (by decide)
      have h120 := stripPrefix_digits (p := [48, 120]) hd
        (List.mem_cons_of_mem _ (List.mem_singleton_self _)) (by decide)
      simp [startsWith, h34, h39, h120]
    · simp [startsWith, stripPrefix]

/-! ## Building the target -/

theorem copyFromSlice_replicate {n : Nat} {bs : Bytes} (h : bs.length ≤ n) :
    copyFromSlice (List.replicate n 0) bs = bs ++ List.replicate (n - bs.length) 0 := by
  simp [copyFromSlice, List.drop_replicate, List.take_of_length_le, h]

namespace MetaOp

theorem numSize_of_class {l : MetaLoad} {k : MetaType} (hk : l.type &&& 0x1f = k.code) :
    numSize l = .ok (UInt8.ofNat k.width) := by
  cases k <;> simp [numSize, MetaLoad.isByte, MetaLoad.isShort, MetaLoad.isInt,
    MetaLoad.isLong, hk, MetaType.code, MetaType.width]

theorem isNum_of_class {l : MetaLoad} {k : MetaType} (hk : l.type &&& 0x1f = k.code) :
    l.isNum = true := by
  cases k <;> simp [MetaLoad.isNum, MetaLoad.isByte, MetaLoad.isShort, MetaLoad.isInt,
    MetaLoad.isLong, hk, MetaType.code]

theorem strTarget_eq_ok {top t : MetaTarget} {r : Rval} {op : MetaCmp} :
    strTarget top r op = .ok t ↔
      (op = .eq ∨ op = .ne) ∧ ∃ val, r = .str val ∧ val.length < top.md.length ∧
        t = { top.copyMd val with sz := UInt8.ofNat val.length } := by
  unfold strTarget
  by_cases hop : op = .eq ∨ op = .ne
  · rw [if_neg (by tauto)]
    cases r with
    | str val =>
      by_cases hlen : val.length < top.md.length
      · simp [hop, hlen, Nat.not_le.2 hlen, eq_comm]
      · simp [hop, hlen, Nat.le_of_not_lt hlen]
    | _ => simp
  · rw [if_pos (by tauto)]
    simp [hop]

theorem numTarget_eq_ok {host : Host} {top t : MetaTarget} {l : MetaLoad} {r : Rval}
    {k : MetaType} (hk : l.type &&& 0x1f = k.code) :
    numTarget host top l r = .ok t ↔
      ∃ v, numValue l r = .ok v ∧
        t = { top.copyMd (toNeBytes host.endian v) with sz := UInt8.ofNat k.width } := by
  simp only [numTarget, numSize_of_class hk, bind_eq_ok, pure_eq_ok, Except.ok.injEq,
    exists_eq_left']
  constructor <;> rintro ⟨v, hv, h⟩ <;> exact ⟨v, hv, h.symm⟩

theorem emitTarget_str {host : Host} {l : MetaLoad} {r : Rval} {op : MetaCmp} {top : MetaTarget}
    (hl : (l.isPtr || l.isArr) = true) :
    emitTarget host l r op = .ok top ↔
      ∃ t, strTarget MetaTarget.zero r op = .ok t ∧ top = { t with cmp := op.code } := by
  have hl' : (l.isPtr || decide (l.nmemb > 0)) = true := hl
  simp only [emitTarget, hl', ite_true, bind_eq_ok, pure_eq_ok]
  constructor <;> rintro ⟨t, ht, h⟩ <;> exact ⟨t, ht, h.symm⟩

theorem emitTarget_num {host : Host} {l : MetaLoad} {r : Rval} {op : MetaCmp} {top : MetaTarget}
    {k : MetaType} (hl : (l.isPtr || l.isArr) = false) (hk : l.type &&& 0x1f = k.code) :
    emitTarget host l r op = .ok top ↔
      ∃ t, numTarget host MetaTarget.zero l r = .ok t ∧ top = { t with cmp := op.code } := by
  have hl' : (l.isPtr || decide (l.nmemb > 0)) = false := hl
  simp only [emitTarget, hl', isNum_of_class hk, Bool.false_eq_true, ite_false, ite_true,
    bind_eq_ok, pure_eq_ok]
  constructor <;> rintro ⟨t, ht, h⟩ <;> exact ⟨t, ht, h.symm⟩

/-- Against a numeric load, `emit_target` builds a target exactly when it reads
a value from the right-hand side. -/
theorem emitTarget_num_ok {host : Host} {l : MetaLoad} {k : MetaType}
    (hk : l.type &&& 0x1f = k.code) (hl : (l.isPtr || l.isArr) = false) {r : Rval}
    {op : MetaCmp} :
    (∃ top, emitTarget host l r op = .ok top) ↔ ∃ v, numValue l r = .ok v := by
  simp only [emitTarget_num hl hk, numTarget_eq_ok hk]
  constructor
  · rintro ⟨_, _, ⟨v, hv, rfl⟩, rfl⟩
    exact ⟨v, hv⟩
  · rintro ⟨v, hv⟩
    exact ⟨_, _, ⟨v, hv, rfl⟩, rfl⟩

/-! ## Reading a number -/

theorem numValue_hex {l : MetaLoad} {val : Bytes} {v : UInt64} :
    numValue l (.hex val) = .ok v ↔ u64FromStrRadix val 16 = .ok v := by
  simp only [numValue]
  split <;> simp_all

theorem numValue_dec {l : MetaLoad} {val : Bytes} {v : UInt64}
    (hs : startsWith val (utf8 "-") = false) :
    numValue l (.dec val) = .ok v ↔ parseU64 val = .ok v := by
  simp only [numValue, hs, Bool.false_eq_true, ite_false]
  cases parseU64 val <;> simp

theorem numValue_neg {l : MetaLoad} {val : Bytes} {v : UInt64}
    (hs : startsWith val (utf8 "-") = true) :
    numValue l (.dec val) = .ok v ↔
      l.isSigned = true ∧ ∃ i, parseI64 val = .ok i ∧ v = UInt64.ofNat (i % 2 ^ 64).toNat := by
  simp only [numValue, hs, ite_true]
  cases hsg : l.isSigned
  · simp
  · simp only [Bool.not_true, Bool.false_eq_true, ite_false, true_and]
    cases parseI64 val with
    | error e => simp
    | ok i =>
      simp only [pure_eq_ok, Except.ok.injEq, exists_eq_left']
      exact eq_comm

end MetaOp

/-! ## Numerals -/

theorem filterMap_toDigit {digit : UInt8 → Option Nat} {radix : Nat}
    (hdig : ∀ b : UInt8, toDigit radix b.toNat = digit b) (ds : Bytes) :
    (ds.map UInt8.toNat).filterMap (toDigit radix) = ds.filterMap digit := by
  rw [List.filterMap_map]
  exact congrArg (List.filterMap · ds) (funext hdig)

private theorem map_toNat_eq_plus {s : Bytes} :
    s.map UInt8.toNat = [43] ↔ s = utf8 "+" := by
  constructor
  · intro h
    obtain ⟨b, l, rfl, hb, hl⟩ := List.map_eq_cons_iff.1 h
    rw [List.map_eq_nil_iff.1 hl, UInt8.toNat.inj (hb.trans rfl : b.toNat = (43 : UInt8).toNat)]
    rfl
  · rintro rfl; rfl

section Radix

variable {digit : UInt8 → Option Nat} {radix : Nat} (h0 : 0 < radix) (h36 : radix ≤ 36)
  (hdig : ∀ b : UInt8, toDigit radix b.toNat = digit b)
include h0 h36 hdig

/-- `u64::from_str_radix`: an optional `+`, then digits whose value fits. -/
theorem u64FromStrRadix_eq_ok {s : Bytes} {v : UInt64} :
    u64FromStrRadix s radix = .ok v ↔
      ∃ (plus : Bool) (ds : Bytes), s = (if plus then utf8 "+" else []) ++ ds ∧ ds ≠ [] ∧
        (∀ b ∈ ds, (digit b).isSome) ∧ numeral digit radix ds < 2 ^ 64 ∧
        v = UInt64.ofNat (numeral digit radix ds) := by
  have hval : ∀ ds : Bytes, digitsValue radix 0 ((ds.map UInt8.toNat).filterMap
      (toDigit radix)) = numeral digit radix ds := fun ds => by
    rw [filterMap_toDigit hdig]; rfl
  have hd : ∀ ds : Bytes, (∀ c ∈ ds.map UInt8.toNat, (toDigit radix c).isSome) ↔
      ∀ b ∈ ds, (digit b).isSome := by
    simp [hdig]
  simp only [u64FromStrRadix, except_map_eq_ok, fromStrRadix_unsigned_eq_ok h0 h36, digits_iff,
    List.map_eq_append_iff]
  constructor
  · rintro ⟨_, ⟨_, _, _, ⟨l₁, l₂, rfl, rfl, rfl⟩, hsign, hne, ⟨hl₂, rfl⟩, hle, rfl⟩, rfl⟩
    rw [hval] at hle ⊢
    refine ⟨l₁ ≠ [], l₂, ?_, by simpa using hne, (hd l₂).1 hl₂, by omega, by simp⟩
    rcases hsign with h | h
    · simp [List.map_eq_nil_iff.1 h]
    · rw [map_toNat_eq_plus.1 h]; rfl
  · rintro ⟨plus, ds, rfl, hne, hds, hlt, rfl⟩
    refine ⟨_, ⟨_, _, _, ⟨_, ds, rfl, rfl, rfl⟩, ?_, by simpa using hne, ⟨(hd ds).2 hds, rfl⟩,
      by rw [hval]; omega, rfl⟩, by simp only [Int.toNat_ofNat, hval]⟩
    cases plus
    · exact .inl rfl
    · exact .inr rfl

/-- `u64::from_str_radix` of a nonempty string of digits: their value, when it
fits. -/
theorem u64FromStrRadix_digits (h43 : digit 43 = none) {ds : Bytes} (hne : ds ≠ [])
    (hds : ∀ b ∈ ds, (digit b).isSome) {v : UInt64} :
    u64FromStrRadix ds radix = .ok v ↔
      numeral digit radix ds < 2 ^ 64 ∧
        v = UInt64.ofNat ((numeral digit radix ds : Int) % 2 ^ 64).toNat := by
  have hv : ∀ n : Nat, n < 2 ^ 64 → UInt64.ofNat ((n : Int) % 2 ^ 64).toNat = UInt64.ofNat n :=
    fun n hn => congrArg UInt64.ofNat (by omega)
  rw [u64FromStrRadix_eq_ok h0 h36 hdig]
  constructor
  · rintro ⟨_ | _, ds', hs, -, -, hlt, rfl⟩
    · obtain rfl : ds = ds' := hs
      exact ⟨hlt, (hv _ hlt).symm⟩
    · have := hds 43 (by simp [hs, utf8_plus])
      simp [h43] at this
  · rintro ⟨hlt, rfl⟩
    exact ⟨false, ds, rfl, hne, hds, hlt, hv _ hlt⟩

end Radix

/-- `-` then decimal digits parses as an `i64` when there is one at least and
the magnitude is at most `2 ^ 63`. -/
theorem parseI64_minus {rest : Bytes} {i : Int} :
    parseI64 (utf8 "-" ++ rest) = .ok i ↔ rest ≠ [] ∧ (∀ b ∈ rest, (decDigit b).isSome) ∧
      numeral decDigit 10 rest ≤ 2 ^ 63 ∧ i = -(numeral decDigit 10 rest : Int) := by
  have hd : (∀ c ∈ rest.map UInt8.toNat, (toDigit 10 c).isSome) ↔
      ∀ b ∈ rest, (decDigit b).isSome := by
    simp [toDigit_dec]
  simp only [parseI64, utf8_minus, List.singleton_append, List.map_cons]
  rw [show UInt8.toNat 45 = 45 from rfl, fromStrRadix_signed_neg_eq_ok (by decide)]
  simp only [digits_iff, hd, filterMap_toDigit toDigit_dec, ne_eq, List.map_eq_nil_iff]
  constructor
  · rintro ⟨hne, _, ⟨hds, rfl⟩, hle, rfl⟩
    exact ⟨hne, hds, hle, rfl⟩
  · rintro ⟨hne, hds, hle, rfl⟩
    exact ⟨hne, _, ⟨hds, rfl⟩, hle, rfl⟩

/-! ## The buffer -/

theorem holdsStr_copyMd {c : Bytes} (h : c.length < metaTargetMax) (x : UInt8) :
    RhsToken.HoldsStr c { MetaTarget.zero.copyMd c with sz := UInt8.ofNat c.length, cmp := x } := by
  have hsz : (UInt8.ofNat c.length).toNat = c.length :=
    UInt8.toNat_ofNat_of_lt (by unfold metaTargetMax at h; simp only [UInt8.size]; omega)
  simp [RhsToken.HoldsStr, MetaTarget.copyMd, MetaTarget.zero, hsz, copyFromSlice_replicate h.le]

theorem holdsNum_copyMd (host : Host) {l : MetaLoad} {k : MetaType}
    (hk : l.type &&& 0x1f = k.code) (v : Int) (x : UInt8) :
    RhsToken.HoldsNum host l v
      { MetaTarget.zero.copyMd (toNeBytes host.endian (UInt64.ofNat (v % 2 ^ 64).toNat)) with
        sz := UInt8.ofNat k.width, cmp := x } := by
  have hv : (UInt64.ofNat (v % 2 ^ 64).toNat).toNat = (v % 2 ^ 64).toNat :=
    UInt64.toNat_ofNat_of_lt (by simp only [UInt64.size]; omega)
  have hmd : ∀ w, (MetaTarget.zero.copyMd (toNeBytes host.endian w)).md =
      toNeBytes host.endian w ++ List.replicate (metaTargetMax - 8) 0 := by
    intro w
    rw [← length_toNeBytes host.endian w]
    exact copyFromSlice_replicate (by simp [metaTargetMax])
  refine ⟨?_, ?_, k, hk, by cases k <;> rfl⟩
  · simp only [hmd, List.take_left' (length_toNeBytes _ _), fromNeBytes_toNeBytes, hv]
  · simp only [hmd, List.drop_left' (length_toNeBytes _ _)]
    exact fun b => List.eq_of_mem_replicate

/-! ## The target of a token -/

/-- Decimal digits do not start with `-`. -/
private theorem startsWith_minus_digits {ds : Bytes} (hd : ∀ b ∈ ds, (decDigit b).isSome) :
    startsWith ds (utf8 "-") = false := by
  simp [startsWith, utf8_minus, stripPrefix_digits hd (List.mem_singleton_self 45) (by decide)]

private theorem startsWith_minus_text (ds : Bytes) :
    startsWith (RhsToken.dec true ds).text (utf8 "-") = true := by
  simp only [RhsToken.text, ite_true, startsWith, stripPrefix_append, Option.isSome_some]

section Token

variable {host : Host} {l : MetaLoad} {k : MetaType} (hk : l.type &&& 0x1f = k.code)
  {op : MetaCmp}
include hk

/-- A target built from a token, against a load with a size class, is one the
token should give. -/
theorem encodes_of_emitTarget {tok : RhsToken} (htok : tok.Valid) {top : MetaTarget}
    (h : MetaOp.emitTarget host l tok.rval op = .ok top) :
    tok.Accepts l op ∧ tok.Encodes host l op top := by
  cases hc : (l.isPtr || l.isArr)
  · obtain ⟨t, ht, rfl⟩ := (MetaOp.emitTarget_num hc hk).1 h
    obtain ⟨v, hv, rfl⟩ := (MetaOp.numTarget_eq_ok hk).1 ht
    cases tok with
    | quoted dq c => simp [RhsToken.rval, MetaOp.numValue] at hv
    | hex ds =>
      obtain ⟨hlt, rfl⟩ := (u64FromStrRadix_digits (by decide) (by decide) toDigit_hex (by decide) htok.1
        htok.2).1 (MetaOp.numValue_hex.1 hv)
      exact ⟨⟨hc, hlt⟩, rfl, holdsNum_copyMd host hk _ _⟩
    | dec neg ds =>
      cases neg
      · obtain ⟨hlt, rfl⟩ := (u64FromStrRadix_digits (by decide) (by decide) toDigit_dec (by decide) htok.1
          htok.2).1 ((MetaOp.numValue_dec (startsWith_minus_digits htok.2)).1 hv)
        exact ⟨⟨hc, hlt⟩, rfl, holdsNum_copyMd host hk _ _⟩
      · obtain ⟨hs, i, hi, rfl⟩ := (MetaOp.numValue_neg (startsWith_minus_text ds)).1 hv
        obtain ⟨-, -, hle, rfl⟩ := parseI64_minus.1 hi
        exact ⟨⟨hc, hs, hle⟩, rfl, holdsNum_copyMd host hk _ _⟩
  · obtain ⟨t, ht, rfl⟩ := (MetaOp.emitTarget_str hc).1 h
    obtain ⟨hop, val, hr, hlen, rfl⟩ := MetaOp.strTarget_eq_ok.1 ht
    cases tok with
    | quoted dq c =>
      cases hr
      exact ⟨⟨hc, hop, hlen⟩, rfl, holdsStr_copyMd hlen _⟩
    | hex ds => cases hr
    | dec neg ds => cases hr

/-- Against a load with a size class, a target is built from every token it
should be built from. -/
theorem emitTarget_of_accepts {tok : RhsToken} (htok : tok.Valid) (h : tok.Accepts l op) :
    ∃ top, MetaOp.emitTarget host l tok.rval op = .ok top := by
  cases tok with
  | quoted dq c =>
    obtain ⟨hc, hop, hlen⟩ := h
    exact ⟨_, (MetaOp.emitTarget_str hc).2 ⟨_, MetaOp.strTarget_eq_ok.2 ⟨hop, _, rfl, hlen, rfl⟩,
      rfl⟩⟩
  | hex ds =>
    obtain ⟨hc, hlt⟩ := h
    have hv := (u64FromStrRadix_digits (by decide) (by decide) toDigit_hex (by decide) htok.1 htok.2).2
      ⟨hlt, rfl⟩
    exact (MetaOp.emitTarget_num_ok hk hc).2 ⟨_, MetaOp.numValue_hex.2 hv⟩
  | dec neg ds =>
    cases neg
    · obtain ⟨hc, hlt⟩ := h
      have hv := (u64FromStrRadix_digits (by decide) (by decide) toDigit_dec (by decide) htok.1 htok.2).2
        ⟨hlt, rfl⟩
      exact (MetaOp.emitTarget_num_ok hk hc).2
        ⟨_, (MetaOp.numValue_dec (startsWith_minus_digits htok.2)).2 hv⟩
    · obtain ⟨hc, hs, hle⟩ := h
      have hi := parseI64_minus.2 ⟨htok.1, htok.2, hle, rfl⟩
      exact (MetaOp.emitTarget_num_ok hk hc).2
        ⟨_, (MetaOp.numValue_neg (startsWith_minus_text ds)).2 ⟨hs, _, hi, rfl⟩⟩

end Token

/-! ## Any right-hand side against a number -/

/-- What `Rval::from_str` makes of a string that does not start with a quote. -/
theorem fromStr_unquoted {rhs : Bytes} (h : ∀ b ∈ rhs.head?, b ≠ 34 ∧ b ≠ 39) :
    Rval.fromStr rhs = .ok (if startsWith rhs (utf8 "0x") then
      .hex (trimStartMatches rhs (utf8 "0x")) else .dec rhs) := by
  have hq : ∀ q : UInt8, q = 34 ∨ q = 39 → startsWith rhs [q] = false := by
    rintro q hq
    cases rhs with
    | nil => rfl
    | cons b rest =>
      have := h b rfl
      have hbq : b ≠ q := by rcases hq with rfl | rfl <;> simp_all
      simp [startsWith, stripPrefix, hbq]
  simp only [Rval.fromStr, utf8_dquote, utf8_squote, hq 34 (.inl rfl), hq 39 (.inr rfl),
    Bool.false_and, Bool.or_false, Bool.false_eq_true, ite_false]
  split <;> rfl

/-- What `Rval::from_str` can give. -/
theorem fromStr_cases {rhs : Bytes} {r : Rval} (h : Rval.fromStr rhs = .ok r) :
    (∃ s, r = .str s) ∨
      (startsWith rhs (utf8 "0x") = true ∧ r = .hex (trimStartMatches rhs (utf8 "0x"))) ∨
      (startsWith rhs (utf8 "0x") = false ∧ r = .dec rhs) := by
  unfold Rval.fromStr at h
  split at h
  · obtain ⟨s, -, h⟩ := bind_eq_ok.1 h
    exact .inl ⟨s, (pure_eq_ok.1 h).symm⟩
  · by_cases h0x : startsWith rhs (utf8 "0x") = true
    · rw [if_pos h0x, pure_eq_ok] at h
      exact .inr (.inl ⟨h0x, h.symm⟩)
    · rw [if_neg h0x, pure_eq_ok] at h
      exact .inr (.inr ⟨Bool.eq_false_iff.2 h0x, h.symm⟩)

/-- A number, with or without `+`, does not start with a quote. -/
private theorem head_number {digit : UInt8 → Option Nat} {plus : Bool} {ds : Bytes}
    (hd : ∀ b ∈ ds, (digit b).isSome) (h34 : digit 34 = none) (h39 : digit 39 = none) :
    ∀ b ∈ ((if plus then utf8 "+" else []) ++ ds).head?, b ≠ 34 ∧ b ≠ 39 := by
  intro b hb
  cases plus
  · cases ds with
    | nil => cases hb
    | cons d ds =>
      obtain rfl : d = b := by simpa using hb
      have := hd d (List.mem_cons_self _ _)
      exact ⟨fun h => by simp [h, h34] at this, fun h => by simp [h, h39] at this⟩
  · obtain rfl : (43 : UInt8) = b := by simpa [utf8_plus] using hb
    decide

/-- The right-hand sides `Rval::from_str` and `emit_target` take against a
numeric load: `0x`, as many times as wanted, then an optional `+` and hex
digits; an optional `+` then decimal digits; or, against a signed load, `-`
then decimal digits. The value is in range. -/
def NumRhs (l : MetaLoad) (rhs : Bytes) : Prop :=
  (∃ (k : Nat) (plus : Bool) (ds : Bytes), 0 < k ∧
    rhs = (List.replicate k (utf8 "0x")).flatten ++ ((if plus then utf8 "+" else []) ++ ds) ∧
    ds ≠ [] ∧ (∀ b ∈ ds, (hexDigit b).isSome) ∧ numeral hexDigit 16 ds < 2 ^ 64) ∨
  (∃ (plus : Bool) (ds : Bytes), rhs = (if plus then utf8 "+" else []) ++ ds ∧
    ds ≠ [] ∧ (∀ b ∈ ds, (decDigit b).isSome) ∧ numeral decDigit 10 ds < 2 ^ 64) ∨
  (l.isSigned = true ∧ ∃ ds : Bytes, rhs = utf8 "-" ++ ds ∧
    ds ≠ [] ∧ (∀ b ∈ ds, (decDigit b).isSome) ∧ numeral decDigit 10 ds ≤ 2 ^ 63)

/-- A right-hand side that `Rval::from_str` classifies and `emit_target` reads a
value from is a `NumRhs`. -/
theorem numRhs_of_numValue {l : MetaLoad} {rhs : Bytes} {r : Rval} {v : UInt64}
    (hr : Rval.fromStr rhs = .ok r) (hv : MetaOp.numValue l r = .ok v) : NumRhs l rhs := by
  rcases fromStr_cases hr with ⟨s, rfl⟩ | ⟨h0x, rfl⟩ | ⟨h0x, rfl⟩
  · simp [MetaOp.numValue] at hv
  · obtain ⟨plus, ds, htrim, hne, hd, hlt, -⟩ := (u64FromStrRadix_eq_ok (by decide) (by decide)
      toDigit_hex).1 (MetaOp.numValue_hex.1 hv)
    obtain ⟨n, hn, hnone⟩ := trimStartMatches_spec (p := utf8 "0x") (by decide) rhs
    refine .inl ⟨n, plus, ds, Nat.pos_of_ne_zero fun h0 => ?_, htrim ▸ hn, hne, hd, hlt⟩
    rw [h0, List.replicate_zero, List.flatten_nil, List.nil_append] at hn
    rw [startsWith, hn, hnone] at h0x
    cases h0x
  · by_cases hm : startsWith rhs (utf8 "-") = true
    · obtain ⟨hs, i, hi, -⟩ := (MetaOp.numValue_neg hm).1 hv
      obtain ⟨rest, rfl⟩ := startsWith_iff.1 hm
      obtain ⟨hne, hd, hle, -⟩ := parseI64_minus.1 hi
      exact .inr (.inr ⟨hs, rest, rfl, hne, hd, hle⟩)
    · obtain ⟨plus, ds, hrhs, hne, hd, hlt, -⟩ := (u64FromStrRadix_eq_ok (by decide) (by decide)
        toDigit_dec).1 ((MetaOp.numValue_dec (Bool.eq_false_iff.2 hm)).1 hv)
      exact .inr (.inl ⟨plus, ds, hrhs, hne, hd, hlt⟩)

/-- `Rval::from_str` classifies every `NumRhs`, and `emit_target` reads a value
from it. -/
theorem numValue_of_numRhs {l : MetaLoad} {rhs : Bytes} (h : NumRhs l rhs) :
    ∃ r v, Rval.fromStr rhs = .ok r ∧ MetaOp.numValue l r = .ok v := by
  rcases h with ⟨n, plus, ds, hn, rfl, hne, hd, hlt⟩ | ⟨plus, ds, rfl, hne, hd, hlt⟩ |
    ⟨hs, ds, rfl, hne, hd, hle⟩
  case inl =>
    obtain ⟨m, rfl⟩ : ∃ m, n = m + 1 := ⟨n - 1, by omega⟩
    have hnone := stripPrefix_number plus hd
      (List.mem_cons_of_mem 48 (List.mem_singleton_self 120)) (by decide) (by decide)
    rw [← utf8_hexPrefix] at hnone
    have hhead : ((List.replicate (m + 1) (utf8 "0x")).flatten ++
        ((if plus then utf8 "+" else []) ++ ds)).head? = some 48 := by
      simp [List.replicate_succ, utf8_hexPrefix]
    rw [fromStr_unquoted (by simp [hhead]), if_pos (by simp [List.replicate_succ,
      List.append_assoc, startsWith]), trimStartMatches_replicate (by decide) hnone]
    exact ⟨_, _, rfl, MetaOp.numValue_hex.2 ((u64FromStrRadix_eq_ok (by decide) (by decide)
      toDigit_hex).2 ⟨plus, ds, rfl, hne, hd, hlt, rfl⟩)⟩
  case inr.inl =>
    have h0x := stripPrefix_number plus hd
      (List.mem_cons_of_mem 48 (List.mem_singleton_self 120)) (by decide) (by decide)
    have hminus := stripPrefix_number plus hd (List.mem_singleton_self 45)
      (by decide) (by decide)
    rw [← utf8_hexPrefix] at h0x
    rw [← utf8_minus] at hminus
    rw [fromStr_unquoted (head_number hd (by decide) (by decide)), if_neg (by simp [startsWith, h0x])]
    exact ⟨_, _, rfl, (MetaOp.numValue_dec (by simp [startsWith, hminus])).2
      ((u64FromStrRadix_eq_ok (by decide) (by decide) toDigit_dec).2 ⟨plus, ds, rfl, hne, hd, hlt, rfl⟩)⟩
  case inr.inr =>
    rw [fromStr_unquoted (by simp [utf8_minus]), if_neg (by
      rw [utf8_minus, utf8_hexPrefix]; simp [startsWith, stripPrefix])]
    exact ⟨_, _, rfl, (MetaOp.numValue_neg (by simp [startsWith])).2
      ⟨hs, _, parseI64_minus.2 ⟨hne, hd, hle, rfl⟩, rfl⟩⟩

theorem emitTarget_num_rhs {host : Host} {l : MetaLoad} {k : MetaType}
    (hk : l.type &&& 0x1f = k.code) (hl : (l.isPtr || l.isArr) = false) (rhs : Bytes)
    (op : MetaCmp) :
    (∃ top, (Rval.fromStr rhs >>= fun r => MetaOp.emitTarget host l r op) = .ok top) ↔
      NumRhs l rhs := by
  simp only [bind_eq_ok]
  constructor
  · rintro ⟨top, r, hr, ht⟩
    obtain ⟨v, hv⟩ := (MetaOp.emitTarget_num_ok hk hl).1 ⟨top, ht⟩
    exact numRhs_of_numValue hr hv
  · intro h
    obtain ⟨r, v, hr, hv⟩ := numValue_of_numRhs h
    obtain ⟨top, ht⟩ : ∃ top, MetaOp.emitTarget host l r op = .ok top :=
      (MetaOp.emitTarget_num_ok hk hl).2 ⟨v, hv⟩
    exact ⟨top, r, hr, ht⟩

/-- For every load `emit_load` returns from a well-formed database, every token
of the grammar's `rhs` and every operator: `Rval::from_str` then `emit_target`
build a target exactly when the token should give one, and the target then
holds what the token should give. -/
theorem emitTarget_rhs_token (host : Host) {btf : Btf} (hwf : btf.WellFormed) {fuel : Nat}
    {type : Ty} (htype : type ∈ btf.types) {offt bfs : UInt32} {mask : UInt64} {l : MetaLoad}
    (hl : MetaOp.emitLoad btf fuel type offt bfs mask = .ok l) {tok : RhsToken}
    (htok : tok.Valid) (op : MetaCmp) :
    ((∃ top, (Rval.fromStr tok.text >>= fun r => MetaOp.emitTarget host l r op) = .ok top) ↔
        tok.Accepts l op) ∧
      ∀ top, (Rval.fromStr tok.text >>= fun r => MetaOp.emitTarget host l r op) = .ok top →
        tok.Encodes host l op top := by
  obtain ⟨k, hk⟩ := MetaOp.emitLoad_class hwf htype hl
  simp only [fromStr_text htok, bind_eq_ok, Except.ok.injEq, exists_eq_left']
  exact ⟨⟨fun ⟨_, h⟩ => (encodes_of_emitTarget hk htok h).1, emitTarget_of_accepts hk htok⟩,
    fun _ h => (encodes_of_emitTarget hk htok h).2⟩

/-- `sk_buff.mark == 0xc0de`: the leaf load of `mark`, a `u32` at byte 8 of
`loopBtf`, against the token `0xc0de`. -/
theorem emitTarget_rhs_token_mark :
    ((∃ top, (Rval.fromStr (RhsToken.hex (utf8 "c0de")).text >>= fun r =>
          MetaOp.emitTarget host64 ⟨MetaType.int.code, 0, 8, 0, 0⟩ r .eq) = .ok top) ↔
        (RhsToken.hex (utf8 "c0de")).Accepts ⟨MetaType.int.code, 0, 8, 0, 0⟩ .eq) ∧
      ∀ top, (Rval.fromStr (RhsToken.hex (utf8 "c0de")).text >>= fun r =>
          MetaOp.emitTarget host64 ⟨MetaType.int.code, 0, 8, 0, 0⟩ r .eq) = .ok top →
        (RhsToken.hex (utf8 "c0de")).Encodes host64 ⟨MetaType.int.code, 0, 8, 0, 0⟩ .eq top :=
  @emitTarget_rhs_token host64 loopBtf (by decide) 2 (.int 4 false) (by decide) 64 0 0 _ rfl _
    (by decide) .eq

end Retis
