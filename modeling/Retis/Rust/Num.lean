import Retis.Rust.Str
import Mathlib.Data.List.Forall2

/-!
# Integers: parsing and host bytes

`from_str_radix` as the standard library implements it: an optional sign
(`+` always, `-` only for signed types; a sign alone is an invalid digit),
then digits of the radix read left to right, the first bad digit or the first
value past the type's range ending the parse. It is defined once over
character codes, so that `&str` bytes and `char`s share it.

`to_ne_bytes`/`from_ne_bytes` depend on the host's byte order, which is a
parameter (`Host`) together with the pointer width.

Proved here: `fromStrRadix_eq_ok` characterises the accepted strings and
their values; `fromNeBytes_toNeBytes` is the byte round trip.
-/

namespace Retis

/-- `core::num::IntErrorKind`, the reason a `ParseIntError` gives. -/
inductive IntErrorKind where
  | empty
  | invalidDigit
  | posOverflow
  | negOverflow
  deriving DecidableEq, Repr

/-- The error a `ParseIntError` becomes through `?`, with the text it displays. -/
def IntErrorKind.fault : IntErrorKind → Fault
  | .empty => .error "cannot parse integer from empty string"
  | .invalidDigit => .error "invalid digit found in string"
  | .posOverflow => .error "number too large to fit in target type"
  | .negOverflow => .error "number too small to fit in target type"

/-- `(c as char).to_digit(radix)` for a character code `c` and a radix up to 36. -/
def toDigit (radix c : Nat) : Option Nat :=
  let d :=
    if 48 ≤ c ∧ c < 58 then c - 48
    else if 97 ≤ c ∧ c < 123 then c - 87
    else if 65 ≤ c ∧ c < 91 then c - 55
    else 36
  if d < radix then some d else none

/-- The digit loop of `from_str_radix`, from the value `acc`: a digit that is
not one is `invalidDigit`, a value past `limit` is the overflow `ovf`. -/
def digitsLoop (radix limit : Nat) (ovf : IntErrorKind) : Nat → List Nat → Except IntErrorKind Nat
  | acc, [] => .ok acc
  | acc, c :: cs =>
    match toDigit radix c with
    | none => .error .invalidDigit
    | some d =>
      if acc * radix + d ≤ limit then digitsLoop radix limit ovf (acc * radix + d) cs
      else .error ovf

/-- `from_str_radix` of the integer type with the given signedness and width,
over character codes; the value is returned as an `Int`. -/
def fromStrRadix (signed : Bool) (bits : Nat) (radix : Nat) (src : List Nat) :
    Except IntErrorKind Int :=
  let pos (ds : List Nat) : Except IntErrorKind Int :=
    (digitsLoop radix (2 ^ (if signed then bits - 1 else bits) - 1) .posOverflow 0 ds).map
      Int.ofNat
  match src with
  | [] => .error .empty
  | c :: rest =>
    if (c = 43 ∨ c = 45) ∧ rest = [] then .error .invalidDigit
    else if c = 43 then pos rest
    else if c = 45 ∧ signed then
      (digitsLoop radix (2 ^ (bits - 1)) .negOverflow 0 rest).map (- Int.ofNat ·)
    else pos src

/-- `u64::from_str_radix(s, radix)`. -/
def u64FromStrRadix (s : Bytes) (radix : Nat) : Except IntErrorKind UInt64 :=
  (fromStrRadix false 64 radix (s.map UInt8.toNat)).map fun v => UInt64.ofNat v.toNat

/-- `s.parse::<u64>()`. -/
def parseU64 (s : Bytes) : Except IntErrorKind UInt64 := u64FromStrRadix s 10

/-- `s.parse::<i64>()`, the value as an `Int`. -/
def parseI64 (s : Bytes) : Except IntErrorKind Int := fromStrRadix true 64 10 (s.map UInt8.toNat)

/-! ## The accepted strings -/

/-- The value of a list of digit values, read most significant first after `acc`. -/
def digitsValue (radix : Nat) : Nat → List Nat → Nat
  | acc, [] => acc
  | acc, d :: ds => digitsValue radix (acc * radix + d) ds

/-- Every code of `cs` is a digit of `radix`, the digits having the values `ds`. -/
def Digits (radix : Nat) (cs ds : List Nat) : Prop :=
  List.Forall₂ (fun c d => toDigit radix c = some d) cs ds

theorem le_digitsValue {radix : Nat} (h : 0 < radix) (acc : Nat) (ds : List Nat) :
    acc ≤ digitsValue radix acc ds := by
  induction ds generalizing acc with
  | nil => exact le_refl _
  | cons d ds ih =>
    have : acc ≤ acc * radix + d := le_add_right (Nat.le_mul_of_pos_right acc h)
    exact this.trans (ih _)

theorem digitsLoop_eq_ok {radix limit : Nat} {ovf : IntErrorKind} (h : 0 < radix)
    {acc v : Nat} (hacc : acc ≤ limit) {cs : List Nat} :
    digitsLoop radix limit ovf acc cs = .ok v ↔
      ∃ ds, Digits radix cs ds ∧ v = digitsValue radix acc ds ∧ v ≤ limit := by
  induction cs generalizing acc with
  | nil =>
    simp only [digitsLoop, Digits, List.forall₂_nil_left_iff, digitsValue, Except.ok.injEq]
    exact ⟨fun h => ⟨[], rfl, h.symm, h ▸ hacc⟩, by rintro ⟨_, rfl, rfl, _⟩; rfl⟩
  | cons c cs ih =>
    simp only [digitsLoop, Digits, List.forall₂_cons_left_iff]
    cases hc : toDigit radix c with
    | none => simp
    | some d =>
      simp only [Option.some.injEq]
      split
      · rw [ih ‹_›]
        constructor
        · rintro ⟨ds, hds, rfl, hv⟩
          exact ⟨d :: ds, ⟨d, ds, rfl, hds, rfl⟩, rfl, hv⟩
        · rintro ⟨_, ⟨_, ds, rfl, hds, rfl⟩, rfl, hv⟩
          exact ⟨ds, hds, rfl, hv⟩
      · simp only [reduceCtorEq, false_iff, not_exists, not_and]
        rintro _ ⟨_, ds, rfl, hds, rfl⟩ rfl hv
        have := le_digitsValue h (acc * radix + d) ds
        simp only [digitsValue] at hv
        omega

theorem toDigit_sign {radix c : Nat} (hr : radix ≤ 36) (hc : c = 43 ∨ c = 45) :
    toDigit radix c = none := by
  rcases hc with rfl | rfl <;> simp [toDigit] <;> omega

/-- The strings an unsigned `from_str_radix` accepts: an optional `+`, then at
least one digit, the value in range. -/
theorem fromStrRadix_unsigned_eq_ok {bits radix : Nat} (h0 : 0 < radix) (h36 : radix ≤ 36)
    {src : List Nat} {v : Int} :
    fromStrRadix false bits radix src = .ok v ↔
      ∃ sign body ds, src = sign ++ body ∧ (sign = [] ∨ sign = [43]) ∧ body ≠ [] ∧
        Digits radix body ds ∧ digitsValue radix 0 ds ≤ 2 ^ bits - 1 ∧
        v = digitsValue radix 0 ds := by
  have hpos : ∀ ds, (digitsLoop radix (2 ^ bits - 1) .posOverflow 0 ds).map Int.ofNat = .ok v ↔
      ∃ dv, Digits radix ds dv ∧ digitsValue radix 0 dv ≤ 2 ^ bits - 1 ∧
        v = digitsValue radix 0 dv := by
    intro ds
    simp only [except_map_eq_ok, digitsLoop_eq_ok h0 (Nat.zero_le _)]
    constructor
    · rintro ⟨_, ⟨dv, hd, rfl, hle⟩, rfl⟩; exact ⟨dv, hd, hle, rfl⟩
    · rintro ⟨dv, hd, hle, rfl⟩; exact ⟨_, ⟨dv, hd, rfl, hle⟩, rfl⟩
  have hsign : ∀ c rest ds, c = 43 ∨ c = 45 → ¬ Digits radix (c :: rest) ds := by
    rintro c rest ds hc hd
    obtain ⟨_, _, h, _⟩ := List.forall₂_cons_left_iff.1 hd
    rw [toDigit_sign h36 hc] at h
    exact nomatch h
  cases src with
  | nil => simp [fromStrRadix]
  | cons c rest =>
    simp only [fromStrRadix, Bool.false_eq_true, and_false, if_false, ite_true]
    split_ifs with h1 h2
    · obtain ⟨hc, rfl⟩ := h1
      simp only [reduceCtorEq, false_iff, not_exists, not_and]
      rintro sign body ds hs (rfl | rfl) hb hd
      · exact (hsign c [] ds hc (by simpa using hs ▸ hd)).elim
      · simp at hs; exact (hb hs.2).elim
    · subst h2
      rw [hpos]
      constructor
      · rintro ⟨dv, hd, hle, rfl⟩
        exact ⟨[43], rest, dv, rfl, .inr rfl, fun h => h1 ⟨.inl rfl, h⟩, hd, hle, rfl⟩
      · rintro ⟨sign, body, ds, hs, (rfl | rfl), hb, hd, hle, rfl⟩
        · exact absurd (hs ▸ hd) (hsign 43 rest ds (.inl rfl))
        · simp only [List.singleton_append, List.cons.injEq, true_and] at hs
          exact ⟨ds, hs ▸ hd, hle, rfl⟩
    · rw [hpos]
      constructor
      · rintro ⟨dv, hd, hle, rfl⟩
        exact ⟨[], c :: rest, dv, rfl, .inl rfl, List.cons_ne_nil _ _, hd, hle, rfl⟩
      · rintro ⟨sign, body, ds, hs, (rfl | rfl), hb, hd, hle, rfl⟩
        · exact ⟨ds, hs ▸ hd, hle, rfl⟩
        · simp only [List.singleton_append, List.cons.injEq] at hs
          exact absurd hs.1 h2

/-- A signed `from_str_radix` of a string starting with `-`: at least one digit
follows, and the magnitude is at most `2 ^ (bits - 1)`. -/
theorem fromStrRadix_signed_neg_eq_ok {bits radix : Nat} (h0 : 0 < radix)
    {rest : List Nat} {v : Int} :
    fromStrRadix true bits radix (45 :: rest) = .ok v ↔
      rest ≠ [] ∧ ∃ ds, Digits radix rest ds ∧ digitsValue radix 0 ds ≤ 2 ^ (bits - 1) ∧
        v = -(digitsValue radix 0 ds : Int) := by
  cases rest with
  | nil => simp [fromStrRadix]
  | cons c rest =>
    simp only [fromStrRadix, or_true, reduceCtorEq, and_false, if_false, true_and,
      Nat.reduceEqDiff, ite_true, ne_eq, not_false_eq_true, except_map_eq_ok,
      digitsLoop_eq_ok h0 (Nat.zero_le _)]
    constructor
    · rintro ⟨_, ⟨ds, hd, rfl, hle⟩, rfl⟩; exact ⟨ds, hd, hle, rfl⟩
    · rintro ⟨ds, hd, hle, rfl⟩; exact ⟨_, ⟨ds, hd, rfl, hle⟩, rfl⟩

/-- `Digits` pins the digit values down: they are the codes' `to_digit`s. -/
theorem digits_iff {radix : Nat} {cs ds : List Nat} :
    Digits radix cs ds ↔
      (∀ c ∈ cs, (toDigit radix c).isSome) ∧ ds = cs.filterMap (toDigit radix) := by
  induction cs generalizing ds with
  | nil => simp [Digits]
  | cons c cs ih =>
    simp only [Digits] at ih
    cases hc : toDigit radix c with
    | none => simp [Digits, List.forall₂_cons_left_iff, hc]
    | some d =>
      simp only [Digits, List.forall₂_cons_left_iff, hc, Option.some.injEq, ih]
      constructor
      · rintro ⟨_, _, rfl, ⟨hp, rfl⟩, rfl⟩
        simpa [hc] using hp
      · rintro ⟨hp, rfl⟩
        exact ⟨d, _, rfl, ⟨fun c hc => hp c (.tail _ hc), rfl⟩, by simp [hc]⟩

/-! ## Host bytes -/

/-- `target_endian`. -/
inductive Endian where
  | little
  | big
  deriving DecidableEq, Repr

/-- `target_pointer_width`. -/
inductive PtrWidth where
  | w32
  | w64
  deriving DecidableEq, Repr

/-- `size_of::<*const c_void>()`. -/
def PtrWidth.bytes : PtrWidth → Nat
  | .w32 => 4
  | .w64 => 8

/-- The configuration the code is compiled for. -/
structure Host where
  ptrWidth : PtrWidth
  endian : Endian
  deriving DecidableEq, Repr

/-- The `k` low bytes of `v`, least significant first. -/
def leBytes : Nat → Nat → List UInt8
  | 0, _ => []
  | k + 1, v => UInt8.ofNat (v % 256) :: leBytes k (v / 256)

/-- The value of bytes given least significant first. -/
def leValue : List UInt8 → Nat
  | [] => 0
  | b :: bs => b.toNat + 256 * leValue bs

/-- `v.to_ne_bytes()` for `v : u64`. -/
def toNeBytes (e : Endian) (v : UInt64) : List UInt8 :=
  match e with
  | .little => leBytes 8 v.toNat
  | .big => (leBytes 8 v.toNat).reverse

/-- `u64::from_ne_bytes(bs)` for eight bytes `bs`. -/
def fromNeBytes (e : Endian) (bs : List UInt8) : UInt64 :=
  match e with
  | .little => UInt64.ofNat (leValue bs)
  | .big => UInt64.ofNat (leValue bs.reverse)

@[simp] theorem length_leBytes (k v : Nat) : (leBytes k v).length = k := by
  induction k generalizing v <;> simp [leBytes, *]

@[simp] theorem length_toNeBytes (e : Endian) (v : UInt64) : (toNeBytes e v).length = 8 := by
  cases e <;> simp [toNeBytes]

theorem leValue_leBytes (k v : Nat) : leValue (leBytes k v) = v % 256 ^ k := by
  induction k generalizing v with
  | zero => simp [leBytes, leValue, Nat.mod_one]
  | succ k ih =>
    simp only [leBytes, leValue, ih, UInt8.toNat_ofNat_of_lt (Nat.mod_lt v (by decide) : v % 256 < 256)]
    rw [pow_succ', Nat.mod_mul]

theorem fromNeBytes_toNeBytes (e : Endian) (v : UInt64) : fromNeBytes e (toNeBytes e v) = v := by
  have hv : v.toNat < 256 ^ 8 := UInt64.toNat_lt_size v
  have h : UInt64.ofNat (leValue (leBytes 8 v.toNat)) = v := by
    rw [leValue_leBytes, Nat.mod_eq_of_lt hv]
    exact UInt64.toNat.inj (UInt64.toNat_ofNat_of_lt hv)
  cases e <;> simp [fromNeBytes, toNeBytes, h]

theorem leValue_lt (bs : List UInt8) : leValue bs < 256 ^ bs.length := by
  induction bs with
  | nil => decide
  | cons b bs ih =>
    have := b.toNat_lt_size
    simp only [leValue, List.length_cons, pow_succ']
    change b.toNat < 256 at this
    omega

theorem leBytes_leValue (bs : List UInt8) : leBytes bs.length (leValue bs) = bs := by
  induction bs with
  | nil => rfl
  | cons b bs ih =>
    have hb : b.toNat < 256 := b.toNat_lt_size
    have h1 : (b.toNat + 256 * leValue bs) % 256 = b.toNat := by omega
    have h2 : (b.toNat + 256 * leValue bs) / 256 = leValue bs := by omega
    rw [List.length_cons, leBytes, leValue, h1, h2, ih]
    exact congrArg (· :: bs) (UInt8.toNat.inj (UInt8.toNat_ofNat_of_lt hb))

/-- Eight bytes read as a `u64` in the host's order are that `u64`'s bytes. -/
theorem toNeBytes_fromNeBytes (e : Endian) {bs : List UInt8} (h : bs.length = 8) :
    toNeBytes e (fromNeBytes e bs) = bs := by
  have hv : ∀ cs : List UInt8, cs.length = 8 → (UInt64.ofNat (leValue cs)).toNat = leValue cs :=
    fun cs hc => UInt64.toNat_ofNat_of_lt (by have := leValue_lt cs; rw [hc] at this; exact this)
  cases e with
  | little => rw [fromNeBytes, toNeBytes, hv bs h, ← h, leBytes_leValue]
  | big =>
    have hr : bs.reverse.length = 8 := by rw [List.length_reverse, h]
    rw [fromNeBytes, toNeBytes, hv _ hr, ← hr, leBytes_leValue, List.reverse_reverse]

end Retis
