import Retis.User.Proc

/-!
# Decoding a USDT note

`UsdtNote::from_elf` reads three addresses in the host's order, then three
nul-terminated UTF-8 strings, and ignores what follows them. Proved here, for
both byte orders and every byte string:

* `readCString_eq_ok`: reading a string takes the bytes up to the first nul,
  which must be the encoding of a string;
* `fromElf_eq_ok`: `from_elf` returns a note exactly on that note's bytes,
  its strings free of nul, followed by anything;
* `fromElf_returns`: `from_elf` never panics.

`UsdtInfo::new` reads a binary's notes, and `get_note` looks one up by its
target `provider::name`:

* `usdtNotes_eq_ok`: the notes section is read exactly when every entry is a
  `stapsdt` note `from_elf` decodes, and gives those notes in order;
* `getNote_provider_name`: the target `p::n` finds the first note of provider
  `p` and name `n` exactly when `p` holds no `::` and does not end with `:`,
  for `split_once` cuts at the first `::` (`splitOnce_colons`).
-/

namespace Retis

namespace UsdtNote

/-- The bytes `from_elf` reads `note` from: its three addresses in the host's
order, then its three strings, each closed by a nul. -/
def toElf (endian : Endian) (note : UsdtNote) : Bytes :=
  toNeBytes endian note.addr ++ toNeBytes endian note.baseAddr ++ toNeBytes endian note.semaAddr ++
    utf8 note.provider ++ [0] ++ utf8 note.name ++ [0] ++ utf8 note.args ++ [0]

/-- No string of the note holds a nul byte. -/
def NulFree (note : UsdtNote) : Prop :=
  0 ∉ utf8 note.provider ∧ 0 ∉ utf8 note.name ∧ 0 ∉ utf8 note.args

end UsdtNote

/-! ## Reading addresses and strings -/

theorem readU64_eq_ok {endian : Endian} {cursor rest : Bytes} {v : UInt64} :
    readU64 endian cursor = .ok (v, rest) ↔ cursor = toNeBytes endian v ++ rest := by
  unfold readU64
  split_ifs with h
  · simp only [throw_ne_ok, false_iff]
    rintro rfl
    simp at h
  · rw [pure_eq_ok, Prod.mk.injEq]
    constructor
    · rintro ⟨rfl, rfl⟩
      rw [toNeBytes_fromNeBytes endian (by simp; omega), List.take_append_drop]
    · rintro rfl
      rw [List.take_left' (length_toNeBytes _ _), List.drop_left' (length_toNeBytes _ _),
        fromNeBytes_toNeBytes]
      exact ⟨rfl, rfl⟩

theorem readUntil_append_eq (delim : UInt8) (cursor : Bytes) :
    (readUntil delim cursor).1 ++ (readUntil delim cursor).2 = cursor := by
  induction cursor with
  | nil => rfl
  | cons b bs ih =>
    simp only [readUntil]
    split_ifs
    · subst_vars; rfl
    · exact congrArg (b :: ·) ih

theorem readUntil_nul {p : Bytes} (hp : 0 ∉ p) (rest : Bytes) :
    readUntil 0 (p ++ 0 :: rest) = (p ++ [0], rest) := by
  induction p with
  | nil => simp [readUntil]
  | cons b p ih =>
    have hb : b ≠ 0 := fun h => hp (h ▸ List.mem_cons_self _ _)
    simp [readUntil, hb, ih (fun h => hp (List.mem_cons_of_mem _ h))]

/-- `CStr::from_bytes_with_nul` accepts the bytes with one nul, at the end. -/
theorem cstrFromBytesWithNul_eq_ok {buf s : Bytes} :
    cstrFromBytesWithNul buf = .ok s ↔ 0 ∉ s ∧ buf = s ++ [0] := by
  unfold cstrFromBytesWithNul
  constructor
  · intro h
    split at h
    · rename_i pos hfind
      split_ifs at h with hlen
      rw [pure_eq_ok] at h
      subst h
      obtain ⟨hlt, hp, hbefore⟩ := List.findIdx?_eq_some_iff_getElem.1 hfind
      refine ⟨fun hmem => ?_, ?_⟩
      · obtain ⟨j, hj, hjx⟩ := List.getElem_of_mem hmem
        rw [List.length_take] at hj
        rw [List.getElem_take] at hjx
        exact hbefore j (by omega) (by simp [hjx])
      · have h0 : buf[pos] = 0 := by simpa using hp
        calc buf = buf.take pos ++ buf.drop pos := (List.take_append_drop pos buf).symm
          _ = buf.take pos ++ [0] := by
            rw [List.drop_eq_getElem_cons hlt, List.drop_eq_nil_of_le (by omega), h0]
    · simp at h
  · rintro ⟨hs, rfl⟩
    have hfind : (s ++ [0]).findIdx? (· == 0) = some s.length := by
      rw [List.findIdx?_append, List.findIdx?_eq_none_iff.2
        fun x hx => beq_eq_false_iff_ne.2 fun h => hs (by rw [← h]; exact hx)]
      simp
    rw [hfind]
    dsimp only
    rw [if_pos (by simp), List.take_left' rfl]
    rfl

theorem cstrToString_eq_ok {bs : Bytes} {s : String} : cstrToString bs = .ok s ↔ utf8 s = bs := by
  unfold cstrToString
  rw [← fromUtf8_eq_ok]
  split <;> rename_i h <;> simp [h]

/-- Reading a string takes the bytes up to the first nul, which must encode a
string. -/
theorem readCString_eq_ok {cursor rest : Bytes} {s : String} :
    readCString cursor = .ok (s, rest) ↔ 0 ∉ utf8 s ∧ cursor = utf8 s ++ 0 :: rest := by
  unfold readCString
  constructor
  · intro h
    simp only [bind_eq_ok, pure_eq_ok, Prod.mk.injEq] at h
    obtain ⟨bs, hbs, s', hs', rfl, rfl⟩ := h
    obtain ⟨hnul, hbuf⟩ := cstrFromBytesWithNul_eq_ok.1 hbs
    rw [← cstrToString_eq_ok.1 hs'] at hnul hbuf
    refine ⟨hnul, ?_⟩
    conv_lhs => rw [← readUntil_append_eq 0 cursor]
    rw [hbuf, List.append_assoc]
    rfl
  · rintro ⟨hnul, rfl⟩
    rw [readUntil_nul hnul]
    simp only [bind_eq_ok, pure_eq_ok]
    exact ⟨_, cstrFromBytesWithNul_eq_ok.2 ⟨hnul, rfl⟩, s, cstrToString_eq_ok.2 rfl, rfl⟩

/-! ## The whole note -/

/-- `from_elf` returns `note` exactly on `note`'s bytes followed by anything,
when no string of `note` holds a nul. -/
theorem fromElf_eq_ok {endian : Endian} {bytes : Bytes} {note : UsdtNote} :
    UsdtNote.fromElf endian bytes = .ok note ↔
      note.NulFree ∧ ∃ t, bytes = note.toElf endian ++ t := by
  simp only [UsdtNote.fromElf, bind_eq_ok, Prod.exists, readU64_eq_ok, readCString_eq_ok,
    pure_eq_ok]
  constructor
  · rintro ⟨addr, _, rfl, base, _, rfl, sema, _, rfl, p, _, ⟨hp, rfl⟩, n, _, ⟨hn, rfl⟩, a, t,
      ⟨ha, rfl⟩, rfl⟩
    exact ⟨⟨hp, hn, ha⟩, t, by simp [UsdtNote.toElf]⟩
  · rintro ⟨⟨hp, hn, ha⟩, t, rfl⟩
    refine ⟨note.addr, _, ?_, note.baseAddr, _, rfl, note.semaAddr, _, rfl, note.provider, _,
      ⟨hp, rfl⟩, note.name, _, ⟨hn, rfl⟩, note.args, t, ⟨ha, rfl⟩, rfl⟩
    simp [UsdtNote.toElf]

theorem readU64_returns (endian : Endian) (cursor : Bytes) : Returns (readU64 endian cursor) := by
  unfold readU64
  split_ifs <;> trivial

theorem cstrFromBytesWithNul_returns (buf : Bytes) : Returns (cstrFromBytesWithNul buf) := by
  unfold cstrFromBytesWithNul
  split
  · split_ifs <;> trivial
  · trivial

theorem cstrToString_returns (bs : Bytes) : Returns (cstrToString bs) := by
  unfold cstrToString
  split
  · trivial
  · rename_i e _
    rcases e with ⟨_, _ | _⟩ <;> trivial

theorem readCString_returns (cursor : Bytes) : Returns (readCString cursor) :=
  returns_bind (cstrFromBytesWithNul_returns _) fun _ _ =>
    returns_bind (cstrToString_returns _) fun _ _ => trivial

/-- `from_elf` returns a note or an error: it never panics. -/
theorem fromElf_returns (endian : Endian) (bytes : Bytes) :
    Returns (UsdtNote.fromElf endian bytes) := by
  unfold UsdtNote.fromElf
  refine returns_bind (readU64_returns _ _) fun _ _ => ?_
  refine returns_bind (readU64_returns _ _) fun _ _ => ?_
  refine returns_bind (readU64_returns _ _) fun _ _ => ?_
  refine returns_bind (readCString_returns _) fun _ _ => ?_
  refine returns_bind (readCString_returns _) fun _ _ => ?_
  exact returns_bind (readCString_returns _) fun _ _ => trivial

/-- For both byte orders: `from_elf` decodes three addresses, then three
strings free of nul, each closed by a nul, followed by anything, to the note
they spell; every byte string of another shape gives an error, never a
panic. -/
theorem fromElf_decodes (endian : Endian) :
    (∀ (addr base sema : UInt64) (p n a : String) (t : Bytes),
      0 ∉ utf8 p → 0 ∉ utf8 n → 0 ∉ utf8 a →
      UsdtNote.fromElf endian (toNeBytes endian addr ++ toNeBytes endian base ++
          toNeBytes endian sema ++ utf8 p ++ [0] ++ utf8 n ++ [0] ++ utf8 a ++ [0] ++ t) =
        .ok { provider := p, name := n, addr, baseAddr := base, semaAddr := sema, args := a }) ∧
    ∀ bytes : Bytes,
      (¬ ∃ (addr base sema : UInt64) (p n a : String) (t : Bytes),
        0 ∉ utf8 p ∧ 0 ∉ utf8 n ∧ 0 ∉ utf8 a ∧
        bytes = toNeBytes endian addr ++ toNeBytes endian base ++ toNeBytes endian sema ++
          utf8 p ++ [0] ++ utf8 n ++ [0] ++ utf8 a ++ [0] ++ t) →
      ∃ msg, UsdtNote.fromElf endian bytes = .error (.error msg) := by
  refine ⟨fun _ _ _ _ _ _ t hp hn ha => fromElf_eq_ok.2 ⟨⟨hp, hn, ha⟩, t, rfl⟩,
    fun bytes hshape => ?_⟩
  have hr := fromElf_returns endian bytes
  cases h : UsdtNote.fromElf endian bytes with
  | ok note =>
    obtain ⟨⟨hp, hn, ha⟩, t, rfl⟩ := fromElf_eq_ok.1 h
    exact absurd ⟨_, _, _, _, _, _, t, hp, hn, ha, rfl⟩ hshape
  | error f =>
    rw [h] at hr
    cases f with
    | error msg => exact ⟨msg, rfl⟩
    | panic _ => exact hr.elim
    | outOfFuel => exact hr.elim

/-! ## A binary's notes -/

/-- The `.note.stapsdt` entry a binary holds for `note`: a note named
`stapsdt` of type `STAPSDT_TYPE`, whose description is the note's bytes
followed by `t`. -/
def UsdtNote.toElfNote (endian : Endian) (note : UsdtNote) (t : Bytes) : ElfNote :=
  .unknown stapsdtType "stapsdt" (note.toElf endian ++ t)

/-- The loop of `UsdtInfo::new` reads a notes section exactly when every entry
is the entry of a note whose strings hold no nul, whatever follows its bytes;
it returns those notes, in order. -/
theorem usdtNotes_eq_ok {endian : Endian} {es : List ElfNote} {notes : List UsdtNote} :
    usdtNotes endian es = .ok notes ↔
      List.Forall₂ (fun e note => note.NulFree ∧ ∃ t, e = note.toElfNote endian t) es notes := by
  induction es generalizing notes with
  | nil => simp [usdtNotes, eq_comm]
  | cons e es ih =>
    rw [List.forall₂_cons_left_iff]
    cases e with
    | unknown nType name desc =>
      by_cases hc : nType = stapsdtType ∧ name = "stapsdt"
      · obtain ⟨rfl, rfl⟩ := hc
        simp only [usdtNotes, UsdtNote.toElfNote, ElfNote.unknown.injEq, true_and, ne_eq,
          not_true_eq_false, or_self, ite_false, bind_eq_ok, pure_eq_ok, ih, fromElf_eq_ok]
        constructor
        · rintro ⟨_, note, hn, ns, hns, rfl⟩
          exact ⟨note, ns, hn, hns, rfl⟩
        · rintro ⟨note, ns, hn, hns, rfl⟩
          exact ⟨(), note, hn, ns, hns, rfl⟩
      · have hne : nType ≠ stapsdtType ∨ name ≠ "stapsdt" := by tauto
        simp only [usdtNotes, if_pos hne, UsdtNote.toElfNote, ElfNote.unknown.injEq]
        simp only [bail, bind_eq_ok, throw_ne_ok, false_and, exists_false, false_iff, not_exists,
          not_and]
        rintro _ _ ⟨_, _, h1, h2, _⟩ _ _
        exact hc ⟨h1, h2⟩
    | gnuAbiTag => simp [usdtNotes, bail, UsdtNote.toElfNote]
    | gnuBuildId => simp [usdtNotes, bail, UsdtNote.toElfNote]

/-! ## Finding a note by its target -/

/-- `::` cuts `p::n` into `p` and `n` when `p` holds no `::` and does not end
with `:`. -/
theorem splitOnce_colons {p n : List Char} (hp : ¬ [':', ':'] <:+: p ++ [':']) :
    splitOnce [':', ':'] (p ++ ':' :: ':' :: n) = some (p, n) := by
  induction p with
  | nil => simp [splitOnce]
  | cons c p ih =>
    have hpre : ¬ [':', ':'] <+: c :: (p ++ ':' :: ':' :: n) := by
      intro h
      apply hp
      rcases p with _ | ⟨d, p⟩
      · simp only [List.nil_append, List.cons_prefix_cons] at h
        obtain ⟨rfl, -⟩ := h
        exact List.infix_refl _
      · simp only [List.cons_append, List.cons_prefix_cons] at h
        obtain ⟨rfl, rfl, -⟩ := h
        exact (List.prefix_append _ _).isInfix
    rw [splitOnce.eq_def, if_neg (by rwa [List.isPrefixOf_iff_prefix])]
    simp only [List.cons_append]
    rw [ih fun h => hp (List.infix_cons h)]
    rfl

/-- When `p` holds `::` or ends with `:`, `::` cuts `p::n` earlier, inside `p`. -/
theorem splitOnce_colons_early {p : List Char} (n : List Char) (hp : [':', ':'] <:+: p ++ [':']) :
    ∃ a b, splitOnce [':', ':'] (p ++ ':' :: ':' :: n) = some (a, b) ∧ a.length < p.length := by
  induction p with
  | nil => exact absurd hp.length_le (by decide)
  | cons c p ih =>
    by_cases hpre : [':', ':'] <+: c :: (p ++ ':' :: ':' :: n)
    · rw [splitOnce.eq_def, List.cons_append, if_pos (List.isPrefixOf_iff_prefix.2 hpre)]
      exact ⟨_, _, rfl, by simp⟩
    · have hin : [':', ':'] <:+: p ++ [':'] := by
        rcases List.infix_cons_iff.1 hp with h | h
        · exact absurd (h.trans (by simp)) hpre
        · exact h
      obtain ⟨a, b, hs, hl⟩ := ih hin
      rw [splitOnce.eq_def, if_neg (by rwa [List.isPrefixOf_iff_prefix])]
      simp only [List.cons_append]
      rw [hs]
      exact ⟨c :: a, b, rfl, by simp [hl]⟩

/-- What `split_once` returns surrounds the pattern it cut at. -/
theorem splitOnce_some {pat s a b : List Char} (h : splitOnce pat s = some (a, b)) :
    s = a ++ pat ++ b := by
  have hcut {s : List Char} (hp : pat.isPrefixOf s) : s = [] ++ pat ++ s.drop pat.length := by
    simpa using (List.prefix_iff_eq_append.mp (List.isPrefixOf_iff_prefix.mp hp)).symm
  induction s generalizing a with
  | nil =>
    rw [splitOnce.eq_def] at h
    split at h
    · cases h; exact hcut ‹_›
    · cases h
  | cons c s ih =>
    rw [splitOnce.eq_def] at h
    split at h
    · cases h; exact hcut ‹_›
    · obtain ⟨⟨a', b'⟩, hs, he⟩ := Option.map_eq_some'.mp h
      cases he
      simp [ih hs]

/-- `get_note` finds by the target `p::n` the first note of provider `p` and
name `n`, whatever the notes, exactly when `p` holds no `::` and does not end
with `:`; otherwise `split_once` cuts the target at an earlier `::`, and a note
of provider `p` is not found by its own target. -/
theorem getNote_provider_name (p n : String) :
    (∀ info : UsdtInfo, info.getNote (p ++ "::" ++ n) =
      .ok (info.notes.find? fun note => note.provider == p && note.name == n)) ↔
      ¬ [':', ':'] <:+: p.toList ++ [':'] := by
  have htarget : splitOnce "::".toList (p ++ "::" ++ n).toList =
      splitOnce [':', ':'] (p.toList ++ ':' :: ':' :: n.toList) := by
    simp [String.toList]
  constructor
  · intro hall hin
    obtain ⟨a, b, hs, hl⟩ := splitOnce_colons_early n.toList hin
    have hne : (p == String.mk a) = false := by
      rw [beq_eq_false_iff_ne]
      rintro rfl
      exact absurd hl (lt_irrefl _)
    have := hall ⟨0, [⟨p, n, 0, 0, 0, ""⟩]⟩
    rw [UsdtInfo.getNote, htarget, hs] at this
    simp [hne] at this
  · intro hp info
    rw [UsdtInfo.getNote, htarget, splitOnce_colons hp]
    rfl

end Retis
