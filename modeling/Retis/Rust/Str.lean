import Retis.Rust.Core
import Mathlib.Data.List.Basic

/-!
# Rust strings as UTF-8 bytes

A `&str` or `String` of `filter.rs` is modelled by its UTF-8 bytes. Every
operation the compiler applies to its input (`split` on an ASCII character,
`strip_prefix`, `starts_with`, `trim_start_matches`, byte slicing, `len`) is
defined on those bytes exactly as the standard library defines it, so the
model needs no UTF-8 decoding. Byte slicing panics as `str::index` does: when
the range is reversed, past the end, or cuts a character.
-/

namespace Retis

/-- A Rust string slice, as its UTF-8 bytes. -/
abbrev Bytes := List UInt8

/-- The UTF-8 bytes of a Rust string, such as a literal of the source. -/
def utf8 (s : String) : Bytes := s.toUTF8.data.toList

/-- `s.strip_prefix(p)`. -/
def stripPrefix : Bytes → Bytes → Option Bytes
  | s, [] => some s
  | [], _ :: _ => none
  | c :: s, d :: p => if c = d then stripPrefix s p else none

/-- `s.starts_with(p)`. -/
def startsWith (s p : Bytes) : Bool := (stripPrefix s p).isSome

/-- `s.ends_with(p)`. -/
def endsWith (s p : Bytes) : Bool := startsWith s.reverse p.reverse

/-- `s.trim_start_matches(p)`: `p` removed from the front as often as it occurs. -/
def trimStartMatches (s p : Bytes) : Bytes :=
  go s.length s
where
  /-- One removal per unit of fuel; the length of `s` is always enough. -/
  go : Nat → Bytes → Bytes
    | 0, s => s
    | n + 1, s =>
      match p, stripPrefix s p with
      | _ :: _, some r => go n r
      | _, _ => s

/-- The byte of an ASCII character. -/
def byte (c : Char) : UInt8 := UInt8.ofNat c.toNat

/-- `s.split(c)` for an ASCII character `c`, which is one byte in UTF-8. -/
def split (s : Bytes) (c : Char) : List Bytes := s.splitOn (byte c)

/-- `ls.join(c)`: the pieces with `c` between them. -/
def join (ls : List Bytes) (c : Char) : Bytes := [byte c].intercalate ls

/-- `s.is_char_boundary(i)`: `i` is the end of `s` or the start of a character. -/
def isCharBoundary (s : Bytes) (i : Nat) : Bool :=
  i = 0 || i = s.length || (match s[i]? with
    | some b => !(0x80 ≤ b && b < 0xC0)
    | none => false)

/-- `&s[a..b]`, with the three panics of `str::index`. -/
def slice (s : Bytes) (a b : Nat) : Res Bytes :=
  if s.length < b then throw (.panic "byte index is out of bounds")
  else if b < a then throw (.panic "begin <= end when slicing")
  else if !(isCharBoundary s a && isCharBoundary s b) then
    throw (.panic "byte index is not a char boundary")
  else pure ((s.take b).drop a)

/-! ## Lemmas -/

/-! The bytes of the literals the parsers match. -/

theorem utf8_dquote : utf8 "\"" = [34] := rfl
theorem utf8_squote : utf8 "'" = [39] := rfl
theorem utf8_hexPrefix : utf8 "0x" = [48, 120] := rfl
theorem utf8_binPrefix : utf8 "0b" = [48, 98] := rfl
theorem utf8_minus : utf8 "-" = [45] := rfl
theorem utf8_plus : utf8 "+" = [43] := rfl
theorem utf8_tilde : utf8 "~" = [126] := rfl

set_option maxRecDepth 20000 in
/-- The first byte of a character of two, three or four bytes. -/
private theorem lead_byte : ∀ x : UInt8,
    0xC0 ≤ x &&& 0x1f ||| 0xc0 ∧ 0xC0 ≤ x &&& 0x0f ||| 0xe0 ∧ 0xC0 ≤ x &&& 0x07 ||| 0xf0 :=
  forall_uint8 (by decide)

set_option maxRecDepth 20000 in
private theorem not_continuation : ∀ b : UInt8,
    b < 0x80 ∨ 0xC0 ≤ b → (!(decide (0x80 ≤ b) && decide (b < 0xC0))) = true :=
  forall_uint8 (by decide)

/-- A character's encoding starts with an ASCII byte or a lead byte, never a
continuation byte (`0x80` to `0xBF`). -/
theorem utf8EncodeChar_head (c : Char) :
    ∃ b bs, String.utf8EncodeChar c = b :: bs ∧ (b < 0x80 ∨ 0xC0 ≤ b) := by
  dsimp only [String.utf8EncodeChar]
  split_ifs with h1
  · have h : c.val.toNat ≤ 127 := UInt32.toNat_le_of_le (by decide) h1
    refine ⟨_, _, rfl, .inl ?_⟩
    show (UInt8.ofNat c.val.toNat).toNat < 128
    rw [UInt8.toNat_ofNat_of_lt (by simp only [UInt8.size]; omega)]
    omega
  · exact ⟨_, _, rfl, .inr (lead_byte _).1⟩
  · exact ⟨_, _, rfl, .inr (lead_byte _).2.1⟩
  · exact ⟨_, _, rfl, .inr (lead_byte _).2.2⟩

theorem stripPrefix_eq_some {s p r : Bytes} : stripPrefix s p = some r ↔ s = p ++ r := by
  induction p generalizing s with
  | nil => simp [stripPrefix, eq_comm]
  | cons d p ih =>
    cases s with
    | nil => simp [stripPrefix]
    | cons c s =>
      simp only [stripPrefix, List.cons_append, List.cons.injEq]
      split <;> simp_all

@[simp] theorem stripPrefix_append (p r : Bytes) : stripPrefix (p ++ r) p = some r :=
  stripPrefix_eq_some.2 rfl

theorem startsWith_iff {s p : Bytes} : startsWith s p = true ↔ ∃ r, s = p ++ r := by
  simp only [startsWith, Option.isSome_iff_exists, stripPrefix_eq_some]

/-- Splitting undoes joining pieces that do not hold the separator. -/
theorem split_join {ls : List Bytes} {c : Char} (hx : ∀ l ∈ ls, byte c ∉ l) (hls : ls ≠ []) :
    split (join ls c) c = ls :=
  List.splitOn_intercalate ls _ hx hls

theorem join_split (s : Bytes) (c : Char) : join (split s c) c = s :=
  List.intercalate_splitOn s _

/-- A property of every byte of the pieces and of the separator holds of every
byte of the joined string. -/
theorem forall_mem_join {P : UInt8 → Prop} {ls : List Bytes} {c : Char} (hc : P (byte c))
    (hls : ∀ l ∈ ls, ∀ b ∈ l, P b) : ∀ b ∈ join ls c, P b := by
  suffices ∀ l ∈ ls.intersperse [byte c], ∀ b ∈ l, P b by
    intro b hb
    obtain ⟨l, hl, hb⟩ := List.mem_flatten.1 hb
    exact this l hl b hb
  induction ls with
  | nil => simp
  | cons l ls ih =>
    cases ls with
    | nil => simpa using hls
    | cons l' ls =>
      rw [List.forall_mem_cons] at hls
      rw [List.intersperse_cons₂, List.forall_mem_cons, List.forall_mem_cons]
      exact ⟨hls.1, by simpa using hc, ih hls.2⟩

/-- A byte of a piece of `split s c` is a byte of `s`, and not `c`. -/
theorem mem_split {s p : Bytes} {c : Char} (h : p ∈ split s c) {b : UInt8} (hb : b ∈ p) :
    b ∈ s ∧ b ≠ byte c := by
  unfold split List.splitOn at h
  induction s generalizing p with
  | nil => simp_all
  | cons x xs ih =>
    rw [List.splitOnP_cons] at h
    split_ifs at h with hx
    · rcases List.mem_cons.1 h with rfl | h
      · exact absurd hb (List.not_mem_nil _)
      · exact (ih h hb).imp_left (List.mem_cons_of_mem _)
    · obtain ⟨q, qs, hq⟩ := List.exists_cons_of_ne_nil (List.splitOnP_ne_nil _ xs)
      rw [hq] at h ih
      rcases List.mem_cons.1 h with rfl | h
      · rcases List.mem_cons.1 hb with rfl | hb
        · exact ⟨List.mem_cons_self _ _, by simpa using hx⟩
        · exact (ih (List.mem_cons_self _ _) hb).imp_left (List.mem_cons_of_mem _)
      · exact (ih (List.mem_cons_of_mem _ h) hb).imp_left (List.mem_cons_of_mem _)

/-- Trimming a pattern that occurs once at the front removes it once. -/
theorem trimStartMatches_append {p r : Bytes} (hp : p ≠ []) (hr : stripPrefix r p = none) :
    trimStartMatches (p ++ r) p = r := by
  obtain ⟨d, p', rfl⟩ := List.exists_cons_of_ne_nil hp
  have go_r : ∀ n, trimStartMatches.go (d :: p') n r = r := by
    intro n; cases n <;> simp [trimStartMatches.go, hr]
  show trimStartMatches.go (d :: p') ((d :: p') ++ r).length ((d :: p') ++ r) = r
  rw [List.length_append, List.length_cons, Nat.add_right_comm]
  simp only [trimStartMatches.go, stripPrefix_append, go_r]

/-- `trim_start_matches` takes `p` off the front as long as it is there: what it
leaves does not start with `p`. -/
theorem trimStartMatches_spec {p : Bytes} (hp : p ≠ []) (s : Bytes) :
    ∃ k, s = (List.replicate k p).flatten ++ trimStartMatches s p ∧
      stripPrefix (trimStartMatches s p) p = none := by
  obtain ⟨d, p', rfl⟩ := List.exists_cons_of_ne_nil hp
  suffices ∀ n s, s.length ≤ n → ∃ k, s = (List.replicate k (d :: p')).flatten ++
      trimStartMatches.go (d :: p') n s ∧ stripPrefix (trimStartMatches.go (d :: p') n s) (d :: p') = none
    from this _ s le_rfl
  intro n
  induction n with
  | zero =>
    intro s hs
    obtain rfl := List.eq_nil_of_length_eq_zero (Nat.le_zero.1 hs)
    exact ⟨0, rfl, rfl⟩
  | succ n ih =>
    intro s hs
    cases h : stripPrefix s (d :: p') with
    | none => exact ⟨0, by simp [trimStartMatches.go, h], by simp [trimStartMatches.go, h]⟩
    | some r =>
      have hsr := stripPrefix_eq_some.1 h
      obtain ⟨k, hk, hnone⟩ := ih r (by simp [hsr] at hs; omega)
      refine ⟨k + 1, ?_, by simpa [trimStartMatches.go, h] using hnone⟩
      simp only [trimStartMatches.go, h]
      rw [hsr, List.replicate_succ, List.flatten_cons, List.append_assoc, ← hk]

/-- Trimming a pattern that occurs `k` times at the front removes it `k` times. -/
theorem trimStartMatches_replicate {p r : Bytes} (hp : p ≠ []) (hr : stripPrefix r p = none)
    (k : Nat) : trimStartMatches ((List.replicate k p).flatten ++ r) p = r := by
  obtain ⟨d, p', rfl⟩ := List.exists_cons_of_ne_nil hp
  suffices ∀ k n, ((List.replicate k (d :: p')).flatten ++ r).length ≤ n →
      trimStartMatches.go (d :: p') n ((List.replicate k (d :: p')).flatten ++ r) = r
    from this k _ le_rfl
  intro k
  induction k with
  | zero => intro n _; cases n <;> simp [trimStartMatches.go, hr]
  | succ k ih =>
    intro n hn
    cases n with
    | zero =>
      simp only [List.replicate_succ, List.flatten_cons, List.length_append,
        List.length_cons] at hn
      omega
    | succ n =>
      simp only [List.replicate_succ, List.flatten_cons, List.append_assoc] at hn ⊢
      simp only [trimStartMatches.go, stripPrefix_append]
      exact ih n (by simp at hn ⊢; omega)

/-- The inside of a string between two equal ASCII quotes, `&s[1..s.len() - 1]`,
is the string itself: both ends are character boundaries. -/
theorem slice_quoted {q : UInt8} (hq : q < 0x80) (c : String) :
    slice (q :: (utf8 c ++ [q])) 1 ((utf8 c).length + 1) = .ok (utf8 c) := by
  have h1 : isCharBoundary (q :: (utf8 c ++ [q])) 1 = true := by
    have : utf8 c = c.data.flatMap String.utf8EncodeChar := rfl
    cases hc : c.data with
    | nil => simp [isCharBoundary, this, hc, not_continuation q (.inl hq)]
    | cons ch cs =>
      obtain ⟨b, bs, he, hb⟩ := utf8EncodeChar_head ch
      simp [isCharBoundary, this, hc, he, not_continuation b hb]
  have h2 : isCharBoundary (q :: (utf8 c ++ [q])) ((utf8 c).length + 1) = true := by
    simp [isCharBoundary, not_continuation q (.inl hq)]
  simp [slice, h1, h2]

end Retis
