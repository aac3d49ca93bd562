import Retis.Rust.Str

/-!
# UTF-8 validation

`core::str::from_utf8`, which `CStr::to_str` calls, checks its bytes one
sequence at a time (`run_utf8_validation`): the leading byte gives the length
of the sequence (`utf8_char_width`), the second byte of a three- or four-byte
sequence has a range that depends on the leading byte (no overlong form, no
surrogate, nothing above U+10FFFF), and every later byte is a continuation
byte. A `Utf8Error` records where the valid prefix ends and how many bytes of
the bad sequence were read, or `None` when the input ended inside it.

A Rust `String` is its bytes, the model's strings are Lean strings: the model
decodes each sequence it accepts into its character. Proved here:

* `decodeSeq_eq_ok`: what one sequence can be;
* `fromUtf8_eq_ok`: `from_utf8(bs)` is `Ok(s)` exactly when `bs` is `s`
  encoded, so decoding inverts `String.toUTF8`.
-/

namespace Retis

/-- `core::str::Utf8Error`. -/
structure Utf8Error where
  validUpTo : Nat
  errorLen : Option Nat
  deriving DecidableEq, Repr

/-- What a `Utf8Error` displays. -/
def Utf8Error.fault (e : Utf8Error) : Fault :=
  match e.errorLen with
  | some n => .error s!"invalid utf-8 sequence of {n} bytes from index {e.validUpTo}"
  | none => .error s!"incomplete utf-8 byte sequence from index {e.validUpTo}"

/-- `utf8_char_width(b)`: the length of the sequence the byte `b` starts, 0
for a byte that starts none. -/
def utf8CharWidth (b : UInt8) : Nat :=
  if b < 0x80 then 1 else if b < 0xC2 then 0 else if b < 0xE0 then 2
  else if b < 0xF0 then 3 else if b < 0xF5 then 4 else 0

/-- A continuation byte, `10xxxxxx`: the bytes with `(b as i8) < -64`. -/
def IsCont (b : UInt8) : Prop := 0x80 ≤ b ∧ b ≤ 0xBF

/-- The leading byte and second byte of a three-byte sequence that
`run_utf8_validation` accepts. -/
def Second3 (first b : UInt8) : Prop :=
  (first = 0xE0 ∧ 0xA0 ≤ b ∧ b ≤ 0xBF) ∨ (0xE1 ≤ first ∧ first ≤ 0xEC ∧ 0x80 ≤ b ∧ b ≤ 0xBF) ∨
    (first = 0xED ∧ 0x80 ≤ b ∧ b ≤ 0x9F) ∨ (0xEE ≤ first ∧ first ≤ 0xEF ∧ 0x80 ≤ b ∧ b ≤ 0xBF)

/-- The leading byte and second byte of a four-byte sequence that
`run_utf8_validation` accepts. -/
def Second4 (first b : UInt8) : Prop :=
  (first = 0xF0 ∧ 0x90 ≤ b ∧ b ≤ 0xBF) ∨ (0xF1 ≤ first ∧ first ≤ 0xF3 ∧ 0x80 ≤ b ∧ b ≤ 0xBF) ∨
    (first = 0xF4 ∧ 0x80 ≤ b ∧ b ≤ 0x8F)

instance (b : UInt8) : Decidable (IsCont b) := inferInstanceAs (Decidable (_ ∧ _))

instance (first b : UInt8) : Decidable (Second3 first b) := inferInstanceAs (Decidable (_ ∨ _))

instance (first b : UInt8) : Decidable (Second4 first b) := inferInstanceAs (Decidable (_ ∨ _))

/-- The code point of a two-byte sequence: the low five bits of the leading
byte, then the low six of the other. -/
def cp2 (b0 b1 : UInt8) : Nat := b0.toNat % 32 * 64 + b1.toNat % 64

/-- The code point of a three-byte sequence. -/
def cp3 (b0 b1 b2 : UInt8) : Nat := (b0.toNat % 16 * 64 + b1.toNat % 64) * 64 + b2.toNat % 64

/-- The code point of a four-byte sequence. -/
def cp4 (b0 b1 b2 b3 : UInt8) : Nat :=
  ((b0.toNat % 8 * 64 + b1.toNat % 64) * 64 + b2.toNat % 64) * 64 + b3.toNat % 64

/-- `next!()` of `run_utf8_validation`: the next byte of the sequence that
starts at index `pos`, or the error for an input that ends inside it. -/
def nextByte (pos : Nat) : Bytes → Except Utf8Error (UInt8 × Bytes)
  | [] => .error ⟨pos, none⟩
  | b :: bs => .ok (b, bs)

/-- One iteration of `run_utf8_validation`, on the sequence `first` starts at
index `pos`: its checks, then the character it encodes and the bytes after
it. -/
def decodeSeq (pos : Nat) (first : UInt8) (bs : Bytes) : Except Utf8Error (Char × Bytes) :=
  match utf8CharWidth first with
  | 1 => .ok (Char.ofNat first.toNat, bs)
  | 2 => do
    let (b1, bs) ← nextByte pos bs
    if IsCont b1 then pure (Char.ofNat (cp2 first b1), bs) else throw ⟨pos, some 1⟩
  | 3 => do
    let (b1, bs) ← nextByte pos bs
    if Second3 first b1 then do
      let (b2, bs) ← nextByte pos bs
      if IsCont b2 then pure (Char.ofNat (cp3 first b1 b2), bs) else throw ⟨pos, some 2⟩
    else throw ⟨pos, some 1⟩
  | 4 => do
    let (b1, bs) ← nextByte pos bs
    if Second4 first b1 then do
      let (b2, bs) ← nextByte pos bs
      if IsCont b2 then do
        let (b3, bs) ← nextByte pos bs
        if IsCont b3 then pure (Char.ofNat (cp4 first b1 b2 b3), bs) else throw ⟨pos, some 3⟩
      else throw ⟨pos, some 2⟩
    else throw ⟨pos, some 1⟩
  | _ => throw ⟨pos, some 1⟩

/-! ## What one sequence can be -/

theorem utf8CharWidth_eq (b : UInt8) :
    utf8CharWidth b = if b.toNat < 0x80 then 1 else if b.toNat < 0xC2 then 0
      else if b.toNat < 0xE0 then 2 else if b.toNat < 0xF0 then 3
      else if b.toNat < 0xF5 then 4 else 0 := rfl

theorem isCont_iff {b : UInt8} : IsCont b ↔ 0x80 ≤ b.toNat ∧ b.toNat ≤ 0xBF := Iff.rfl

private theorem uint8_eq_iff {a b : UInt8} : a = b ↔ a.toNat = b.toNat :=
  ⟨congrArg _, UInt8.toNat.inj⟩

theorem second3_iff {first b : UInt8} :
    Second3 first b ↔
      (first.toNat = 0xE0 ∧ 0xA0 ≤ b.toNat ∧ b.toNat ≤ 0xBF) ∨
      (0xE1 ≤ first.toNat ∧ first.toNat ≤ 0xEC ∧ 0x80 ≤ b.toNat ∧ b.toNat ≤ 0xBF) ∨
      (first.toNat = 0xED ∧ 0x80 ≤ b.toNat ∧ b.toNat ≤ 0x9F) ∨
      (0xEE ≤ first.toNat ∧ first.toNat ≤ 0xEF ∧ 0x80 ≤ b.toNat ∧ b.toNat ≤ 0xBF) := by
  simp only [Second3, uint8_eq_iff]
  exact Iff.rfl

theorem second4_iff {first b : UInt8} :
    Second4 first b ↔
      (first.toNat = 0xF0 ∧ 0x90 ≤ b.toNat ∧ b.toNat ≤ 0xBF) ∨
      (0xF1 ≤ first.toNat ∧ first.toNat ≤ 0xF3 ∧ 0x80 ≤ b.toNat ∧ b.toNat ≤ 0xBF) ∨
      (first.toNat = 0xF4 ∧ 0x80 ≤ b.toNat ∧ b.toNat ≤ 0x8F) := by
  simp only [Second4, uint8_eq_iff]
  exact Iff.rfl

theorem nextByte_eq_ok {pos : Nat} {bs rest : Bytes} {b : UInt8} :
    nextByte pos bs = .ok (b, rest) ↔ bs = b :: rest := by
  cases bs <;> simp [nextByte]

/-- The sequences `decodeSeq` accepts, the character each encodes and what
follows it. -/
theorem decodeSeq_eq_ok {pos : Nat} {first : UInt8} {bs rest : Bytes} {c : Char} :
    decodeSeq pos first bs = .ok (c, rest) ↔
      (utf8CharWidth first = 1 ∧ Char.ofNat first.toNat = c ∧ bs = rest) ∨
      (utf8CharWidth first = 2 ∧ ∃ b1, bs = b1 :: rest ∧ IsCont b1 ∧ c = Char.ofNat (cp2 first b1)) ∨
      (utf8CharWidth first = 3 ∧ ∃ b1 b2, bs = b1 :: b2 :: rest ∧ Second3 first b1 ∧ IsCont b2 ∧
        c = Char.ofNat (cp3 first b1 b2)) ∨
      (utf8CharWidth first = 4 ∧ ∃ b1 b2 b3, bs = b1 :: b2 :: b3 :: rest ∧ Second4 first b1 ∧
        IsCont b2 ∧ IsCont b3 ∧ c = Char.ofNat (cp4 first b1 b2 b3)) := by
  unfold decodeSeq
  split <;> rename_i hw
  · simp [hw]
  · simp [hw, nextByte_eq_ok, ite_throw_eq_ok]
    constructor
    · rintro ⟨b1, _, rfl, h1, rfl, rfl⟩
      exact ⟨b1, rfl, h1, rfl⟩
    · rintro ⟨b1, rfl, h1, rfl⟩
      exact ⟨b1, rest, rfl, h1, rfl, rfl⟩
  · simp [hw, nextByte_eq_ok, ite_throw_eq_ok]
    constructor
    · rintro ⟨b1, _, rfl, h1, b2, _, rfl, h2, rfl, rfl⟩
      exact ⟨b1, b2, rfl, h1, h2, rfl⟩
    · rintro ⟨b1, b2, rfl, h1, h2, rfl⟩
      exact ⟨b1, _, rfl, h1, b2, rest, rfl, h2, rfl, rfl⟩
  · simp [hw, nextByte_eq_ok, ite_throw_eq_ok]
    constructor
    · rintro ⟨b1, _, rfl, h1, b2, _, rfl, h2, b3, _, rfl, h3, rfl, rfl⟩
      exact ⟨b1, b2, b3, rfl, h1, h2, h3, rfl⟩
    · rintro ⟨b1, b2, b3, rfl, h1, h2, h3, rfl⟩
      exact ⟨b1, _, rfl, h1, b2, _, rfl, h2, b3, rest, rfl, h3, rfl, rfl⟩
  · rename_i h1 h2 h3
    simp only [throw_ne_ok, false_iff]
    rintro (⟨h, -⟩ | ⟨h, -⟩ | ⟨h, -⟩ | ⟨h, -⟩)
    exacts [h1 h, h2 h, h3 h, hw h]

theorem utf8CharWidth_eq_one {b : UInt8} : utf8CharWidth b = 1 ↔ b.toNat < 0x80 := by
  rw [utf8CharWidth_eq]; split_ifs <;> simp <;> omega

theorem utf8CharWidth_eq_two {b : UInt8} :
    utf8CharWidth b = 2 ↔ 0xC2 ≤ b.toNat ∧ b.toNat < 0xE0 := by
  rw [utf8CharWidth_eq]; split_ifs <;> simp <;> omega

theorem utf8CharWidth_eq_three {b : UInt8} :
    utf8CharWidth b = 3 ↔ 0xE0 ≤ b.toNat ∧ b.toNat < 0xF0 := by
  rw [utf8CharWidth_eq]; split_ifs <;> simp <;> omega

theorem utf8CharWidth_eq_four {b : UInt8} :
    utf8CharWidth b = 4 ↔ 0xF0 ≤ b.toNat ∧ b.toNat < 0xF5 := by
  rw [utf8CharWidth_eq]; split_ifs <;> simp <;> omega

/-! ## The encoding, in numbers -/

set_option maxRecDepth 20000 in
private theorem lead2_toNat : ∀ x : UInt8, (x &&& 0x1f ||| 0xc0).toNat = x.toNat % 32 + 0xC0 :=
  forall_uint8 (by decide)

set_option maxRecDepth 20000 in
private theorem lead3_toNat : ∀ x : UInt8, (x &&& 0x0f ||| 0xe0).toNat = x.toNat % 16 + 0xE0 :=
  forall_uint8 (by decide)

set_option maxRecDepth 20000 in
private theorem lead4_toNat : ∀ x : UInt8, (x &&& 0x07 ||| 0xf0).toNat = x.toNat % 8 + 0xF0 :=
  forall_uint8 (by decide)

set_option maxRecDepth 20000 in
private theorem cont_toNat : ∀ x : UInt8, (x &&& 0x3f ||| 0x80).toNat = x.toNat % 64 + 0x80 :=
  forall_uint8 (by decide)

private theorem toUInt8_toNat (v : UInt32) : v.toUInt8.toNat = v.toNat % 256 := by
  simp [UInt32.toUInt8, UInt32.toNat, UInt8.toNat, Nat.toUInt8, UInt8.ofNat]

private theorem toNat_lt_char (c : Char) : c.toNat < 0x110000 := by
  rcases c.valid with h | ⟨-, h⟩
  exacts [Nat.lt_trans h (by decide), h]

/-- `String.utf8EncodeChar`, byte by byte, in numbers. -/
theorem utf8EncodeChar_toNat (c : Char) :
    (String.utf8EncodeChar c).map UInt8.toNat =
      if c.toNat < 0x80 then [c.toNat]
      else if c.toNat < 0x800 then [c.toNat / 64 + 0xC0, c.toNat % 64 + 0x80]
      else if c.toNat < 0x10000 then
        [c.toNat / 4096 + 0xE0, c.toNat / 64 % 64 + 0x80, c.toNat % 64 + 0x80]
      else
        [c.toNat / 262144 + 0xF0, c.toNat / 4096 % 64 + 0x80, c.toNat / 64 % 64 + 0x80,
          c.toNat % 64 + 0x80] := by
  have hc := toNat_lt_char c
  have h6 : (c.val >>> 6).toNat = c.toNat / 64 := by
    show c.toNat >>> 6 = _; rw [Nat.shiftRight_eq_div_pow]
  have h12 : (c.val >>> 12).toNat = c.toNat / 4096 := by
    show c.toNat >>> 12 = _; rw [Nat.shiftRight_eq_div_pow]
  have h18 : (c.val >>> 18).toNat = c.toNat / 262144 := by
    show c.toNat >>> 18 = _; rw [Nat.shiftRight_eq_div_pow]
  have hv : c.val.toNat = c.toNat := rfl
  simp only [String.utf8EncodeChar]
  by_cases h1 : c.toNat < 0x80
  · rw [if_pos (show c.val ≤ 0x7f from show c.toNat ≤ 127 by omega), if_pos h1]
    simp only [List.map_cons, List.map_nil, toUInt8_toNat, hv, List.cons.injEq, and_true]
    omega
  rw [if_neg (show ¬ c.val ≤ 0x7f from show ¬ c.toNat ≤ 127 by omega), if_neg h1]
  by_cases h2 : c.toNat < 0x800
  · rw [if_pos (show c.val ≤ 0x7ff from show c.toNat ≤ 0x7ff by omega), if_pos h2]
    simp only [List.map_cons, List.map_nil, lead2_toNat, cont_toNat, toUInt8_toNat, hv, h6,
      List.cons.injEq, and_true]
    omega
  rw [if_neg (show ¬ c.val ≤ 0x7ff from show ¬ c.toNat ≤ 0x7ff by omega), if_neg h2]
  by_cases h3 : c.toNat < 0x10000
  · rw [if_pos (show c.val ≤ 0xffff from show c.toNat ≤ 0xffff by omega), if_pos h3]
    simp only [List.map_cons, List.map_nil, lead3_toNat, cont_toNat, toUInt8_toNat, hv, h6, h12,
      List.cons.injEq, and_true]
    omega
  rw [if_neg (show ¬ c.val ≤ 0xffff from show ¬ c.toNat ≤ 0xffff by omega), if_neg h3]
  simp only [List.map_cons, List.map_nil, lead4_toNat, cont_toNat, toUInt8_toNat, hv, h6, h12, h18,
    List.cons.injEq, and_true]
  omega

/-! ## One sequence against one character -/

private theorem toNat_ofNat_char {n : Nat} (h : n < 0xD800 ∨ 0xDFFF < n ∧ n < 0x110000) :
    (Char.ofNat n).toNat = n := by
  rw [Char.ofNat, dif_pos h]; rfl

private theorem eq_of_map_toNat {xs ys : Bytes} (h : xs.map UInt8.toNat = ys.map UInt8.toNat) :
    xs = ys :=
  List.map_injective_iff.2 (fun _ _ => UInt8.toNat.inj) h

/-! For each width, the bytes of a sequence `decodeSeq` accepts are the
digits `String.utf8EncodeChar` writes for its code point, which lies in the
width's range; and the digits of a code point in that range form a sequence
`decodeSeq` accepts. -/

private theorem digits_of_cp2 {b0 b1 : UInt8} (hw : utf8CharWidth b0 = 2) (h1 : IsCont b1) :
    (0x80 ≤ cp2 b0 b1 ∧ cp2 b0 b1 < 0x800) ∧
      cp2 b0 b1 / 64 + 0xC0 = b0.toNat ∧ cp2 b0 b1 % 64 + 0x80 = b1.toNat := by
  rw [utf8CharWidth_eq_two] at hw
  rw [isCont_iff] at h1
  unfold cp2; omega

private theorem cp2_of_digits {n : Nat} {b0 b1 : UInt8} (hn : 0x80 ≤ n ∧ n < 0x800)
    (h0 : b0.toNat = n / 64 + 0xC0) (h1 : b1.toNat = n % 64 + 0x80) :
    utf8CharWidth b0 = 2 ∧ IsCont b1 ∧ cp2 b0 b1 = n := by
  rw [utf8CharWidth_eq_two, isCont_iff]; unfold cp2; omega

private theorem digits_of_cp3 {b0 b1 b2 : UInt8} (hw : utf8CharWidth b0 = 3)
    (h1 : Second3 b0 b1) (h2 : IsCont b2) :
    (0x800 ≤ cp3 b0 b1 b2 ∧ cp3 b0 b1 b2 < 0xD800 ∨
        0xDFFF < cp3 b0 b1 b2 ∧ cp3 b0 b1 b2 < 0x10000) ∧
      cp3 b0 b1 b2 / 4096 + 0xE0 = b0.toNat ∧ cp3 b0 b1 b2 / 64 % 64 + 0x80 = b1.toNat ∧
      cp3 b0 b1 b2 % 64 + 0x80 = b2.toNat := by
  rw [utf8CharWidth_eq_three] at hw
  rw [second3_iff] at h1
  rw [isCont_iff] at h2
  have hb1 : 0x80 ≤ b1.toNat ∧ b1.toNat ≤ 0xBF := by omega
  unfold cp3
  exact ⟨by omega, by clear h1; omega⟩

private theorem cp3_of_digits {n : Nat} {b0 b1 b2 : UInt8}
    (hn : 0x800 ≤ n ∧ n < 0xD800 ∨ 0xDFFF < n ∧ n < 0x10000) (h0 : b0.toNat = n / 4096 + 0xE0)
    (h1 : b1.toNat = n / 64 % 64 + 0x80) (h2 : b2.toNat = n % 64 + 0x80) :
    utf8CharWidth b0 = 3 ∧ Second3 b0 b1 ∧ IsCont b2 ∧ cp3 b0 b1 b2 = n := by
  have hr : 0x800 ≤ n ∧ n < 0x10000 := by omega
  rw [utf8CharWidth_eq_three, second3_iff, isCont_iff]
  exact ⟨by omega, by omega, by omega, by clear hn; unfold cp3; omega⟩

private theorem digits_of_cp4 {b0 b1 b2 b3 : UInt8} (hw : utf8CharWidth b0 = 4)
    (h1 : Second4 b0 b1) (h2 : IsCont b2) (h3 : IsCont b3) :
    (0x10000 ≤ cp4 b0 b1 b2 b3 ∧ cp4 b0 b1 b2 b3 < 0x110000) ∧
      cp4 b0 b1 b2 b3 / 262144 + 0xF0 = b0.toNat ∧
      cp4 b0 b1 b2 b3 / 4096 % 64 + 0x80 = b1.toNat ∧
      cp4 b0 b1 b2 b3 / 64 % 64 + 0x80 = b2.toNat ∧ cp4 b0 b1 b2 b3 % 64 + 0x80 = b3.toNat := by
  rw [utf8CharWidth_eq_four] at hw
  rw [second4_iff] at h1
  rw [isCont_iff] at h2 h3
  have hb1 : 0x80 ≤ b1.toNat ∧ b1.toNat ≤ 0xBF := by omega
  unfold cp4
  exact ⟨by omega, by clear h1; omega⟩

private theorem cp4_of_digits {n : Nat} {b0 b1 b2 b3 : UInt8} (hn : 0x10000 ≤ n ∧ n < 0x110000)
    (h0 : b0.toNat = n / 262144 + 0xF0) (h1 : b1.toNat = n / 4096 % 64 + 0x80)
    (h2 : b2.toNat = n / 64 % 64 + 0x80) (h3 : b3.toNat = n % 64 + 0x80) :
    utf8CharWidth b0 = 4 ∧ Second4 b0 b1 ∧ IsCont b2 ∧ IsCont b3 ∧ cp4 b0 b1 b2 b3 = n := by
  rw [utf8CharWidth_eq_four, second4_iff, isCont_iff, isCont_iff]
  exact ⟨by omega, by omega, by omega, by omega, by unfold cp4; omega⟩

/-- A sequence `decodeSeq` accepts is the encoding of the character it gives. -/
theorem utf8EncodeChar_of_decodeSeq {pos : Nat} {first : UInt8} {bs rest : Bytes} {c : Char}
    (h : decodeSeq pos first bs = .ok (c, rest)) : String.utf8EncodeChar c ++ rest = first :: bs := by
  rcases decodeSeq_eq_ok.1 h with ⟨hw, rfl, rfl⟩ | ⟨hw, b1, rfl, h1, rfl⟩ |
    ⟨hw, b1, b2, rfl, h1, h2, rfl⟩ | ⟨hw, b1, b2, b3, rfl, h1, h2, h3, rfl⟩
  · rw [utf8CharWidth_eq_one] at hw
    have he : String.utf8EncodeChar (Char.ofNat first.toNat) = [first] := eq_of_map_toNat (by
      rw [utf8EncodeChar_toNat, toNat_ofNat_char (.inl (by omega)), if_pos hw]; rfl)
    rw [he]; rfl
  · obtain ⟨hn, d0, d1⟩ := digits_of_cp2 hw h1
    have he : String.utf8EncodeChar (Char.ofNat (cp2 first b1)) = [first, b1] := eq_of_map_toNat (by
      rw [utf8EncodeChar_toNat, toNat_ofNat_char (.inl (by omega)), if_neg (by omega),
        if_pos hn.2, d0, d1]; rfl)
    rw [he]; rfl
  · obtain ⟨hn, d0, d1, d2⟩ := digits_of_cp3 hw h1 h2
    have he : String.utf8EncodeChar (Char.ofNat (cp3 first b1 b2)) = [first, b1, b2] :=
      eq_of_map_toNat (by
        rw [utf8EncodeChar_toNat, toNat_ofNat_char (by omega), if_neg (by omega),
          if_neg (by omega), if_pos (by omega), d0, d1, d2]; rfl)
    rw [he]; rfl
  · obtain ⟨hn, d0, d1, d2, d3⟩ := digits_of_cp4 hw h1 h2 h3
    have he : String.utf8EncodeChar (Char.ofNat (cp4 first b1 b2 b3)) = [first, b1, b2, b3] :=
      eq_of_map_toNat (by
        rw [utf8EncodeChar_toNat, toNat_ofNat_char (.inr ⟨by omega, hn.2⟩), if_neg (by omega),
          if_neg (by omega), if_neg (by omega), d0, d1, d2, d3]; rfl)
    rw [he]; rfl

/-- The encoding of a character, whatever follows it, starts with a sequence
`decodeSeq` accepts, which gives that character back. -/
theorem decodeSeq_utf8EncodeChar (pos : Nat) (c : Char) (tail : Bytes) :
    ∃ first bs, String.utf8EncodeChar c = first :: bs ∧
      decodeSeq pos first (bs ++ tail) = .ok (c, tail) := by
  have hmap := utf8EncodeChar_toNat c
  by_cases h1 : c.toNat < 0x80
  · rw [if_pos h1] at hmap
    simp only [List.map_eq_cons_iff, List.map_eq_nil_iff] at hmap
    obtain ⟨b0, _, he, hb0, rfl⟩ := hmap
    refine ⟨b0, [], he, decodeSeq_eq_ok.2 (.inl ⟨utf8CharWidth_eq_one.2 (by omega), ?_, rfl⟩)⟩
    rw [hb0, Char.ofNat_toNat]
  rw [if_neg h1] at hmap
  by_cases h2 : c.toNat < 0x800
  · rw [if_pos h2] at hmap
    simp only [List.map_eq_cons_iff, List.map_eq_nil_iff] at hmap
    obtain ⟨b0, _, he, hb0, b1, _, rfl, hb1, rfl⟩ := hmap
    obtain ⟨hw, hc1, hv⟩ := cp2_of_digits ⟨by omega, h2⟩ hb0 hb1
    exact ⟨b0, [b1], he, decodeSeq_eq_ok.2 (.inr (.inl ⟨hw, b1, rfl, hc1,
      by rw [hv, Char.ofNat_toNat]⟩))⟩
  rw [if_neg h2] at hmap
  by_cases h3 : c.toNat < 0x10000
  · rw [if_pos h3] at hmap
    simp only [List.map_eq_cons_iff, List.map_eq_nil_iff] at hmap
    obtain ⟨b0, _, he, hb0, b1, _, rfl, hb1, b2, _, rfl, hb2, rfl⟩ := hmap
    have hn : 0x800 ≤ c.toNat ∧ c.toNat < 0xD800 ∨ 0xDFFF < c.toNat ∧ c.toNat < 0x10000 := by
      rcases c.valid with h | ⟨h, -⟩
      exacts [.inl ⟨by omega, h⟩, .inr ⟨h, h3⟩]
    obtain ⟨hw, hs1, hc2, hv⟩ := cp3_of_digits hn hb0 hb1 hb2
    exact ⟨b0, [b1, b2], he, decodeSeq_eq_ok.2 (.inr (.inr (.inl ⟨hw, b1, b2, rfl, hs1, hc2,
      by rw [hv, Char.ofNat_toNat]⟩)))⟩
  rw [if_neg h3] at hmap
  simp only [List.map_eq_cons_iff, List.map_eq_nil_iff] at hmap
  obtain ⟨b0, _, he, hb0, b1, _, rfl, hb1, b2, _, rfl, hb2, b3, _, rfl, hb3, rfl⟩ := hmap
  obtain ⟨hw, hs1, hc2, hc3, hv⟩ := cp4_of_digits ⟨by omega, toNat_lt_char c⟩ hb0 hb1 hb2 hb3
  exact ⟨b0, [b1, b2, b3], he, decodeSeq_eq_ok.2 (.inr (.inr (.inr ⟨hw, b1, b2, b3, rfl, hs1, hc2,
    hc3, by rw [hv, Char.ofNat_toNat]⟩)))⟩

theorem decodeSeq_length {pos : Nat} {first : UInt8} {bs rest : Bytes} {c : Char}
    (h : decodeSeq pos first bs = .ok (c, rest)) : rest.length < bs.length + 1 := by
  have hl := congrArg List.length (utf8EncodeChar_of_decodeSeq h)
  simp only [List.length_append, String.length_utf8EncodeChar, List.length_cons] at hl
  have := c.utf8Size_pos
  omega

/-! ## The whole string -/

/-- `run_utf8_validation` from index `pos` on, with the characters the bytes
encode. -/
def decodeFrom (pos : Nat) : Bytes → Except Utf8Error (List Char)
  | [] => .ok []
  | first :: bs =>
    match _hseq : decodeSeq pos first bs with
    | .ok (c, rest) => (c :: ·) <$> decodeFrom (pos + utf8CharWidth first) rest
    | .error e => .error e
termination_by bs => bs.length
decreasing_by simp_wf; exact decodeSeq_length _hseq

/-- `str::from_utf8(bs)`, as the string the bytes encode. -/
def fromUtf8 (bs : Bytes) : Except Utf8Error String := String.mk <$> decodeFrom 0 bs

theorem decodeFrom_cons {pos : Nat} {first : UInt8} {bs rest : Bytes} {c : Char}
    (h : decodeSeq pos first bs = .ok (c, rest)) :
    decodeFrom pos (first :: bs) = (c :: ·) <$> decodeFrom (pos + utf8CharWidth first) rest := by
  rw [decodeFrom]
  split <;> rename_i heq <;> rw [h] at heq <;> cases heq
  rfl

theorem decodeFrom_cons_error {pos : Nat} {first : UInt8} {bs : Bytes} {e : Utf8Error}
    (h : decodeSeq pos first bs = .error e) : decodeFrom pos (first :: bs) = .error e := by
  rw [decodeFrom]
  split <;> rename_i heq <;> rw [h] at heq <;> cases heq
  rfl

/-- Encoded characters decode back to themselves. -/
theorem decodeFrom_flatMap (pos : Nat) (cs : List Char) :
    decodeFrom pos (cs.flatMap String.utf8EncodeChar) = .ok cs := by
  induction cs generalizing pos with
  | nil => rw [List.flatMap_nil, decodeFrom]
  | cons c cs ih =>
    obtain ⟨first, bs, he, hd⟩ := decodeSeq_utf8EncodeChar pos c (cs.flatMap String.utf8EncodeChar)
    rw [List.flatMap_cons, he, List.cons_append, decodeFrom_cons hd, ih]
    rfl

/-- Bytes that decode are the encoding of what they decode to. -/
theorem flatMap_of_decodeFrom {pos : Nat} {bs : Bytes} {cs : List Char}
    (h : decodeFrom pos bs = .ok cs) : cs.flatMap String.utf8EncodeChar = bs := by
  induction pos, bs using decodeFrom.induct generalizing cs with
  | case1 pos =>
    rw [decodeFrom] at h
    cases h
    rfl
  | case2 pos first bs c rest hseq ih =>
    rw [decodeFrom_cons hseq] at h
    obtain ⟨cs', hcs', rfl⟩ := map_eq_ok.1 h
    rw [List.flatMap_cons, ih hcs', utf8EncodeChar_of_decodeSeq hseq]
  | case3 pos first bs e hseq =>
    rw [decodeFrom_cons_error hseq] at h
    cases h

/-- `from_utf8(bs)` is `Ok(s)` exactly when `bs` is `s` encoded. -/
theorem fromUtf8_eq_ok {bs : Bytes} {s : String} : fromUtf8 bs = .ok s ↔ utf8 s = bs := by
  have hs : utf8 s = s.data.flatMap String.utf8EncodeChar := rfl
  constructor
  · intro h
    obtain ⟨cs, hcs, rfl⟩ := map_eq_ok.1 h
    exact flatMap_of_decodeFrom hcs
  · rintro rfl
    rw [fromUtf8, hs, decodeFrom_flatMap]
    rfl

end Retis
