import Retis.Meta.TargetSpec

/-!
# The language of filter strings

`parse_filter` splits the filter on spaces, the left-hand side on dots and
each node on colons; `parse_mask` reads a mask with `from_str_radix`. Neither
looks further: the `member is mandatory` check never fires, so a member may be
empty, as may a type name; a mask may carry the `+` that `from_str_radix`
allows, and the right-hand side is not looked at.

Proved here:

* `parseMask_eq_ok`: the masks `parse_mask` accepts are
  `"~"? ("0x" "+"? hex+ | "0b" "+"? [01]+ | "+"? digit+)` whose digits fit in
  64 bits and whose value, complemented after `~`, is not zero;
* `parseNode_eq_ok`: a later node is `member (":" mask (":" type)?)?`;
* `parseNode_ne_member_mandatory`: `split` always yields a first piece, so the
  check for a member is dead code;
* `parseFilter_eq_ok`: `parse_filter` accepts exactly the texts of the
  syntax records `FilterSyntax` (`sk_buff`, then one node at least, then an
  operator and any right-hand side without a space, or nothing) and returns
  the record's nodes, operator and right-hand side;
* `parseFilter_named_eq_ok`: the same, for the filters whose nodes all name
  the member the check is written to require.
-/

namespace Retis

/-! ## Syntax -/

/-- Bytes other than `.`, `:` and a space, possibly none: a member or type
name as the splits of `parse_filter` leave it. -/
def Word (bs : Bytes) : Prop := ∀ b ∈ bs, b ≠ byte '.' ∧ b ≠ byte ':' ∧ b ≠ byte ' '

instance (bs : Bytes) : Decidable (Word bs) := by unfold Word; infer_instance

/-- The value of an ASCII binary digit. -/
def binDigit (b : UInt8) : Option Nat :=
  if b.toNat = 48 ∨ b.toNat = 49 then some (b.toNat - 48) else none

/-- The base of a mask, given by its marker. -/
inductive MaskBase where
  | hex
  | bin
  | dec
  deriving DecidableEq, Repr

namespace MaskBase

def radix : MaskBase → Nat
  | hex => 16
  | bin => 2
  | dec => 10

/-- `0x`, `0b` or nothing. -/
def marker : MaskBase → Bytes
  | hex => utf8 "0x"
  | bin => utf8 "0b"
  | dec => []

def digit : MaskBase → UInt8 → Option Nat
  | hex => hexDigit
  | bin => binDigit
  | dec => decDigit

end MaskBase

/-- A mask as written: an optional `~`, the base's marker, an optional `+`,
the digits. -/
structure MaskSyntax where
  not : Bool
  base : MaskBase
  plus : Bool
  digits : Bytes
  deriving DecidableEq, Repr

namespace MaskSyntax

/-- The `+` and the digits, what `from_str_radix` reads. -/
def number (m : MaskSyntax) : Bytes := (if m.plus then utf8 "+" else []) ++ m.digits

def text (m : MaskSyntax) : Bytes := (if m.not then utf8 "~" else []) ++ m.base.marker ++ m.number

/-- The mask: the digits' value, complemented after `~`. -/
def value (m : MaskSyntax) : UInt64 :=
  let v := UInt64.ofNat (numeral m.base.digit m.base.radix m.digits)
  if m.not then ~~~v else v

def Valid (m : MaskSyntax) : Prop :=
  m.digits ≠ [] ∧ (∀ b ∈ m.digits, (m.base.digit b).isSome) ∧
    numeral m.base.digit m.base.radix m.digits < 2 ^ 64 ∧ m.value ≠ 0

end MaskSyntax

/-- A node after `sk_buff`: its member, then optionally a mask, then optionally
the name of the type it is cast to. -/
structure NodeSyntax where
  member : Bytes
  mask : Option (MaskSyntax × Option Bytes)
  deriving DecidableEq, Repr

namespace NodeSyntax

/-- The pieces between the node's colons. -/
def pieces (n : NodeSyntax) : List Bytes :=
  n.member ::
    match n.mask with
    | none => []
    | some (m, c) => m.text :: c.toList

def text (n : NodeSyntax) : Bytes := join n.pieces ':'

def Valid (n : NodeSyntax) : Prop :=
  Word n.member ∧ ∀ m c, n.mask = some (m, c) → m.Valid ∧ ∀ t ∈ c, Word t

/-- The `LhsNode` the node stands for. -/
def node (n : NodeSyntax) : LhsNode :=
  ⟨n.member, (n.mask.map (·.1.value)).getD 0, n.mask.bind (·.2)⟩

end NodeSyntax

/-- A filter: `sk_buff`, the later nodes, and the comparison, if any. -/
structure FilterSyntax where
  nodes : List NodeSyntax
  cmp : Option (MetaCmp × Bytes)
  deriving DecidableEq, Repr

namespace FilterSyntax

def lhs (f : FilterSyntax) : Bytes := join (utf8 "sk_buff" :: f.nodes.map NodeSyntax.text) '.'

def text (f : FilterSyntax) : Bytes :=
  join (f.lhs ::
    match f.cmp with
    | none => []
    | some (op, rhs) => [utf8 op.display, rhs]) ' '

/-- One node at least after `sk_buff`, every node well formed, and no space in
the right-hand side. -/
def Valid (f : FilterSyntax) : Prop :=
  f.nodes ≠ [] ∧ (∀ n ∈ f.nodes, n.Valid) ∧ ∀ op rhs, f.cmp = some (op, rhs) → byte ' ' ∉ rhs

/-- Every node after `sk_buff` names a member, as the `member is mandatory`
check of `parse_filter` is written to require. -/
def Named (f : FilterSyntax) : Prop := ∀ n ∈ f.nodes, n.member ≠ []

/-- The nodes, operator and right-hand side the filter stands for; no
comparison stands for `!= 0`. -/
def parsed (f : FilterSyntax) : List LhsNode × MetaCmp × Bytes :=
  (⟨utf8 "sk_buff", 0, none⟩ :: f.nodes.map NodeSyntax.node,
    match f.cmp with
    | none => (.ne, utf8 "0")
    | some (op, rhs) => (op, rhs))

end FilterSyntax

/-! ## Numbers with a sign -/

set_option maxRecDepth 20000 in
theorem toDigit_bin : ∀ b : UInt8, toDigit 2 b.toNat = binDigit b :=
  forall_uint8 (by decide)

private theorem radix_pos (base : MaskBase) : 0 < base.radix := by cases base <;> decide

private theorem radix_le (base : MaskBase) : base.radix ≤ 36 := by cases base <;> decide

theorem toDigit_base (base : MaskBase) (b : UInt8) : toDigit base.radix b.toNat = base.digit b := by
  cases base
  exacts [toDigit_hex b, toDigit_bin b, toDigit_dec b]

/-! ## Masks -/

set_option maxRecDepth 20000 in
private theorem word_digit (base : MaskBase) :
    ∀ b : UInt8, (base.digit b).isSome → b ≠ byte '.' ∧ b ≠ byte ':' ∧ b ≠ byte ' ' := by
  cases base <;> exact forall_uint8 (by decide)

/-- A mask holds no dot, colon or space. -/
theorem MaskSyntax.word_text {m : MaskSyntax} (hd : ∀ b ∈ m.digits, (m.base.digit b).isSome) :
    Word m.text := by
  have hlit : Word (utf8 "~" ++ utf8 "0x" ++ utf8 "0b" ++ utf8 "+") := by decide
  intro b hb
  rcases m with ⟨nt, base, plus, ds⟩
  simp only [MaskSyntax.text, MaskSyntax.number, List.mem_append] at hb
  rcases hb with (h | h) | h | h
  · exact hlit b (by split at h <;> simp_all)
  · exact hlit b (by cases base <;> simp_all [MaskBase.marker])
  · exact hlit b (by split at h <;> simp_all)
  · exact word_digit _ b (hd b h)

namespace FilterMeta

theorem maskNot_text {m : MaskSyntax} (hd : ∀ b ∈ m.digits, (m.base.digit b).isSome) :
    maskNot m.text = (m.base.marker ++ m.number, m.not) := by
  rcases m with ⟨_ | _, base, plus, ds⟩
  · have : stripPrefix (base.marker ++ ((if plus then utf8 "+" else []) ++ ds)) [126] = none := by
      cases base
      · simp only [MaskBase.marker, utf8_hexPrefix]; rfl
      · simp only [MaskBase.marker, utf8_binPrefix]; rfl
      · exact stripPrefix_number _ hd (List.mem_singleton_self _) rfl (by decide)
    simp [maskNot, MaskSyntax.text, MaskSyntax.number, utf8_tilde, this]
  · simp [maskNot, MaskSyntax.text, MaskSyntax.number, List.append_assoc]

theorem maskBase_number {m : MaskSyntax} (hd : ∀ b ∈ m.digits, (m.base.digit b).isSome) :
    maskBase (m.base.marker ++ m.number) = (m.base.radix, m.number) := by
  rcases m with ⟨_, _ | _ | _, plus, ds⟩ <;>
    simp only [maskBase, MaskBase.marker, MaskBase.radix, utf8_hexPrefix, utf8_binPrefix]
  · simp [stripPrefix]
  · simp [stripPrefix]
  · have h120 := stripPrefix_number plus hd (List.mem_cons_of_mem 48
      (List.mem_singleton_self 120)) rfl (by decide)
    have h98 := stripPrefix_number plus hd (List.mem_cons_of_mem 48
      (List.mem_singleton_self 98)) rfl (by decide)
    simp [MaskSyntax.number, h120, h98]

theorem maskNot_spec (el : Bytes) :
    el = (if (maskNot el).2 then utf8 "~" else []) ++ (maskNot el).1 := by
  unfold maskNot
  cases h : stripPrefix el (utf8 "~") with
  | none => rfl
  | some num => exact stripPrefix_eq_some.1 h

theorem maskBase_spec (el : Bytes) :
    ∃ base : MaskBase, (maskBase el).1 = base.radix ∧ el = base.marker ++ (maskBase el).2 := by
  unfold maskBase
  cases h : stripPrefix el (utf8 "0x") with
  | some hex => exact ⟨.hex, rfl, stripPrefix_eq_some.1 h⟩
  | none =>
    cases h' : stripPrefix el (utf8 "0b") with
    | some bin => exact ⟨.bin, rfl, stripPrefix_eq_some.1 h'⟩
    | none => exact ⟨.dec, rfl, rfl⟩

/-- `parse_mask` after the `~` and the base are read. -/
private theorem parseMask_eq (el : Bytes) {v : UInt64} :
    parseMask el = .ok v ↔
      ∃ w, u64FromStrRadix (maskBase (maskNot el).1).2 (maskBase (maskNot el).1).1 = .ok w ∧
        v = (if (maskNot el).2 then ~~~w else w) ∧ v ≠ 0 := by
  unfold parseMask
  rcases maskNot el with ⟨r, nt⟩
  dsimp only
  rcases maskBase r with ⟨radix, ms⟩
  dsimp only
  cases u64FromStrRadix ms radix with
  | error e => simp
  | ok w =>
    simp only [pure_bind, Except.ok.injEq, exists_eq_left']
    generalize (if nt = true then ~~~w else w) = m
    by_cases hm : m = 0
    · simp [hm, bail]
    · rw [if_neg hm, pure_eq_ok]
      exact ⟨fun h => ⟨h.symm, h ▸ hm⟩, fun h => h.1.symm⟩

/-- The masks `parse_mask` accepts, and their values. -/
theorem parseMask_eq_ok {el : Bytes} {v : UInt64} :
    parseMask el = .ok v ↔ ∃ m : MaskSyntax, m.Valid ∧ m.text = el ∧ m.value = v := by
  rw [parseMask_eq]
  constructor
  · rintro ⟨w, hw, rfl, hv⟩
    obtain ⟨base, hradix, hr⟩ := maskBase_spec (maskNot el).1
    rw [hradix, u64FromStrRadix_eq_ok (radix_pos base) (radix_le base) (toDigit_base base)] at hw
    obtain ⟨plus, ds, hms, hne, hd, hlt, rfl⟩ := hw
    refine ⟨⟨(maskNot el).2, base, plus, ds⟩, ⟨hne, hd, hlt, hv⟩, ?_, rfl⟩
    conv_rhs => rw [maskNot_spec el, hr, hms]
    simp [MaskSyntax.text, MaskSyntax.number, List.append_assoc]
  · rintro ⟨m, ⟨hne, hd, hlt, hv⟩, rfl, rfl⟩
    rw [maskNot_text hd, maskBase_number hd]
    exact ⟨_, (u64FromStrRadix_eq_ok (radix_pos m.base) (radix_le m.base)
      (toDigit_base m.base)).2 ⟨m.plus, m.digits, rfl, hne, hd, hlt, rfl⟩, rfl, hv⟩

/-! ## Nodes -/

private theorem split_ne_nil (x : Bytes) (c : Char) : split x c ≠ [] := List.splitOnP_ne_nil _ x

/-- A later node, by the pieces between its colons. -/
private theorem parseNode_pieces {x member : Bytes} {elem : List Bytes}
    (hsplit : split x ':' = member :: elem) {n : LhsNode} :
    parseNode false x = .ok n ↔ (elem = [] ∧ n = ⟨member, 0, none⟩) ∨
      ∃ el c v, elem = el :: c.toList ∧ parseMask el = .ok v ∧ n = ⟨member, v, c⟩ := by
  unfold parseNode
  rw [hsplit]
  rcases elem with _ | ⟨el, _ | ⟨c, _ | ⟨d, rest⟩⟩⟩ <;> simp
  · exact eq_comm
  · constructor
    · rintro ⟨v, hv, rfl⟩
      exact ⟨el, none, ⟨rfl, rfl⟩, v, hv, rfl⟩
    · rintro ⟨_, _ | _, ⟨rfl, hc⟩, v, hv, rfl⟩
      · exact ⟨v, hv, rfl⟩
      · cases hc
  · constructor
    · rintro ⟨v, hv, rfl⟩
      exact ⟨el, some c, ⟨rfl, rfl⟩, v, hv, rfl⟩
    · rintro ⟨_, _ | _, ⟨rfl, hc⟩, v, hv, rfl⟩
      · cases hc
      · cases hc
        exact ⟨v, hv, rfl⟩
  · rintro _ (_ | _) _ h <;> cases h

private theorem parseMask_ne_member_mandatory (el : Bytes) :
    parseMask el ≠ .error (.error "member is mandatory") := by
  unfold parseMask
  split; split
  cases u64FromStrRadix _ _ <;> simp only [bail] <;> split_ifs <;>
    simp [throw, throwThe, MonadExceptOf.throw, pure, Except.pure, bind_eq_error, ite_eq_iff]

/-- The `member is mandatory` check of `parse_filter` never fires: `split`
yields a first piece even of an empty node, so a node without a member goes on
to its mask and cast like any other. -/
theorem parseNode_ne_member_mandatory (first : Bool) (x : Bytes) :
    parseNode first x ≠ bail "member is mandatory" := by
  obtain ⟨member, elem, h⟩ := List.exists_cons_of_ne_nil (split_ne_nil x ':')
  unfold parseNode
  simp only [h]
  rcases elem with _ | ⟨el, _ | ⟨c, _ | ⟨d, rest⟩⟩⟩ <;> split_ifs <;>
    simp [bail, throw, throwThe, MonadExceptOf.throw, pure, Except.pure, bind_eq_error,
      parseMask_ne_member_mandatory]

private theorem not_mem_of_word {w : Bytes} (hw : Word w) {c : Char}
    (hc : c = '.' ∨ c = ':' ∨ c = ' ') : byte c ∉ w := by
  intro h
  have := hw _ h
  rcases hc with rfl | rfl | rfl <;> simp_all

theorem NodeSyntax.word_pieces {n : NodeSyntax} (hn : n.Valid) : ∀ l ∈ n.pieces, Word l := by
  obtain ⟨member, _ | ⟨m, c⟩⟩ := n <;> intro l hl <;>
    simp only [NodeSyntax.pieces, List.mem_cons, List.mem_singleton, Option.mem_toList,
      List.not_mem_nil, or_false] at hl
  · exact hl ▸ hn.1
  · obtain ⟨hm, hc⟩ := hn.2 m c rfl
    rcases hl with rfl | rfl | hl
    · exact hn.1
    · exact MaskSyntax.word_text hm.2.1
    · exact hc l hl

/-- A well-formed node holds no dot and no space. -/
theorem NodeSyntax.text_sep {n : NodeSyntax} (hn : n.Valid) :
    ∀ b ∈ n.text, b ≠ byte '.' ∧ b ≠ byte ' ' :=
  forall_mem_join (by decide) fun l hl b hb =>
    ⟨(word_pieces hn l hl b hb).1, (word_pieces hn l hl b hb).2.2⟩

/-- A later node, as a piece of a left-hand side (no dot and no space), is
`member (":" mask (":" type)?)?`. -/
theorem parseNode_eq_ok {x : Bytes} (hx : ∀ b ∈ x, b ≠ byte '.' ∧ b ≠ byte ' ') {n : LhsNode} :
    parseNode false x = .ok n ↔ ∃ ns : NodeSyntax, ns.Valid ∧ ns.text = x ∧ ns.node = n := by
  obtain ⟨member, elem, hsplit⟩ := List.exists_cons_of_ne_nil (split_ne_nil x ':')
  rw [parseNode_pieces hsplit]
  have hword : ∀ p ∈ split x ':', Word p := fun p hp b hb =>
    ⟨(hx b (mem_split hp hb).1).1, (mem_split hp hb).2, (hx b (mem_split hp hb).1).2⟩
  have hx' : x = join (member :: elem) ':' := hsplit ▸ (join_split x ':').symm
  constructor
  · rintro (⟨rfl, rfl⟩ | ⟨el, c, v, rfl, hv, rfl⟩)
    · exact ⟨⟨member, none⟩, ⟨hword _ (by simp [hsplit]), by simp⟩, hx'.symm, rfl⟩
    · obtain ⟨m, hm, rfl, rfl⟩ := parseMask_eq_ok.1 hv
      refine ⟨⟨member, some (m, c)⟩, ⟨hword _ (by simp [hsplit]), ?_⟩, hx'.symm, rfl⟩
      rintro _ _ ⟨⟩
      exact ⟨hm, fun t ht => hword t (by cases c <;> simp_all)⟩
  · rintro ⟨⟨member', mask⟩, ⟨hmem, hmask⟩, rfl, rfl⟩
    have hp := split_join (c := ':') (fun l hl => not_mem_of_word
      (NodeSyntax.word_pieces ⟨hmem, hmask⟩ l hl) (by simp)) (List.cons_ne_nil _ _)
    rw [NodeSyntax.text, hp] at hsplit
    rcases mask with _ | ⟨m, c⟩
    · cases hsplit
      exact .inl ⟨rfl, rfl⟩
    · cases hsplit
      obtain ⟨hm, -⟩ := hmask m c rfl
      exact .inr ⟨m.text, c, m.value, rfl, parseMask_eq_ok.2 ⟨m, hm, rfl, rfl⟩, rfl⟩

/-- The first node is `sk_buff`, with no mask and no cast. -/
theorem parseNode_first {x : Bytes} {n : LhsNode} :
    parseNode true x = .ok n ↔ x = utf8 "sk_buff" ∧ n = ⟨utf8 "sk_buff", 0, none⟩ := by
  obtain ⟨member, elem, hsplit⟩ := List.exists_cons_of_ne_nil (split_ne_nil x ':')
  have hx : x = join (member :: elem) ':' := hsplit ▸ (join_split x ':').symm
  unfold parseNode
  rw [hsplit]
  rcases elem with _ | ⟨el, elem⟩
  · obtain rfl : x = member := by simpa [join, List.intercalate] using hx
    by_cases hm : x = utf8 "sk_buff"
    · simp [hm, eq_comm]
    · simp [hm, bail]
  · have hsk : split (utf8 "sk_buff") ':' = [utf8 "sk_buff"] := rfl
    constructor
    · by_cases hm : member = utf8 "sk_buff" <;> simp [hm]
    · rintro ⟨rfl, -⟩
      cases hsk.symm.trans hsplit

/-- The later nodes. -/
theorem mapM_parseNode {xs : List Bytes} (hx : ∀ x ∈ xs, ∀ b ∈ x, b ≠ byte '.' ∧ b ≠ byte ' ')
    {ns : List LhsNode} :
    xs.mapM (parseNode false) = .ok ns ↔ ∃ nss : List NodeSyntax, (∀ n ∈ nss, n.Valid) ∧
      nss.map NodeSyntax.text = xs ∧ nss.map NodeSyntax.node = ns := by
  induction xs generalizing ns with
  | nil =>
    simp only [List.mapM_nil, pure_eq_ok, List.map_eq_nil_iff]
    constructor
    · rintro rfl; exact ⟨[], by simp, rfl, rfl⟩
    · rintro ⟨_, -, rfl, rfl⟩; rfl
  | cons x xs ih =>
    simp only [List.mapM_cons, bind_eq_ok, pure_eq_ok, List.map_eq_cons_iff]
    rw [List.forall_mem_cons] at hx
    constructor
    · rintro ⟨n, hn, ns', hns, rfl⟩
      obtain ⟨n', hn', rfl, rfl⟩ := (parseNode_eq_ok hx.1).1 hn
      obtain ⟨nss, hv, rfl, rfl⟩ := (ih hx.2).1 hns
      exact ⟨n' :: nss, List.forall_mem_cons.2 ⟨hn', hv⟩, ⟨n', nss, rfl, rfl, rfl⟩, rfl⟩
    · rintro ⟨_, hv, ⟨n', nss, rfl, rfl, rfl⟩, rfl⟩
      simp only [List.mem_cons, forall_eq_or_imp] at hv
      exact ⟨_, (parseNode_eq_ok hx.1).2 ⟨n', hv.1, rfl, rfl⟩, _,
        (ih hx.2).2 ⟨nss, hv.2, rfl, rfl⟩, rfl⟩

/-! ## Filters -/

theorem fromStr_eq_ok {s : Bytes} {c : MetaCmp} : MetaCmp.fromStr s = .ok c ↔ s = utf8 c.display := by
  constructor
  · intro h
    unfold MetaCmp.fromStr at h
    split_ifs at h <;> simp at h <;> subst_vars <;> rfl
  · rintro rfl
    cases c <;> rfl

theorem splitFilter_eq_ok {s lhs op rhs : Bytes} :
    splitFilter s = .ok (lhs, op, rhs) ↔ split s ' ' = [lhs, op, rhs] ∨
      (split s ' ' = [lhs] ∧ op = utf8 "!=" ∧ rhs = utf8 "0") := by
  unfold splitFilter
  rcases split s ' ' with _ | ⟨a, _ | ⟨b, _ | ⟨c, _ | ⟨d, rest⟩⟩⟩⟩ <;> simp [bail]
  exact fun _ => ⟨fun ⟨h1, h2⟩ => ⟨h1.symm, h2.symm⟩, fun ⟨h1, h2⟩ => ⟨h1.symm, h2.symm⟩⟩

/-- A left-hand side without spaces gives two nodes or more exactly when it is
`sk_buff` then well-formed nodes, joined by dots. -/
theorem parseLhs_eq_ok {lhs : Bytes} (hl : byte ' ' ∉ lhs) {ns : List LhsNode} :
    (parseLhs lhs = .ok ns ∧ 1 < ns.length) ↔ ∃ nodes : List NodeSyntax, nodes ≠ [] ∧
      (∀ n ∈ nodes, n.Valid) ∧ join (utf8 "sk_buff" :: nodes.map NodeSyntax.text) '.' = lhs ∧
      ns = ⟨utf8 "sk_buff", 0, none⟩ :: nodes.map NodeSyntax.node := by
  obtain ⟨x, xs, hsplit⟩ := List.exists_cons_of_ne_nil (split_ne_nil lhs '.')
  have hxs : ∀ p ∈ xs, ∀ b ∈ p, b ≠ byte '.' ∧ b ≠ byte ' ' := fun p hp b hb =>
    have h := mem_split (hsplit ▸ List.mem_cons_of_mem x hp) hb
    ⟨h.2, fun hs => hl (hs ▸ h.1)⟩
  have hlhs : lhs = join (x :: xs) '.' := hsplit ▸ (join_split lhs '.').symm
  unfold parseLhs
  rw [hsplit]
  simp only [bind_eq_ok, pure_eq_ok, parseNode_first, mapM_parseNode hxs]
  constructor
  · rintro ⟨⟨_, ⟨rfl, rfl⟩, _, ⟨nodes, hv, rfl, rfl⟩, rfl⟩, hlen⟩
    refine ⟨nodes, fun h => ?_, hv, hlhs.symm, rfl⟩
    simp [h] at hlen
  · rintro ⟨nodes, hne, hv, rfl, rfl⟩
    have hdot : ∀ l ∈ utf8 "sk_buff" :: nodes.map NodeSyntax.text, byte '.' ∉ l := by
      simp only [List.mem_cons, List.mem_map, forall_eq_or_imp, forall_exists_index, and_imp,
        forall_apply_eq_imp_iff₂]
      exact ⟨by decide, fun n hn h => (NodeSyntax.text_sep (hv n hn) _ h).1 rfl⟩
    rw [split_join hdot (List.cons_ne_nil _ _)] at hsplit
    cases hsplit
    refine ⟨⟨_, ⟨rfl, rfl⟩, _, ⟨nodes, hv, rfl, rfl⟩, rfl⟩, ?_⟩
    simpa using List.length_pos.2 hne

/-- A left-hand side of well-formed nodes holds no space. -/
theorem FilterSyntax.space_not_mem_lhs {f : FilterSyntax} (hv : ∀ n ∈ f.nodes, n.Valid) :
    byte ' ' ∉ f.lhs := fun h => by
  refine forall_mem_join (P := (· ≠ byte ' ')) (by decide) ?_ _ h rfl
  simp only [List.mem_cons, List.mem_map, forall_eq_or_imp, forall_exists_index, and_imp,
    forall_apply_eq_imp_iff₂]
  exact ⟨by decide, fun n hn b hb => (NodeSyntax.text_sep (hv n hn) b hb).2⟩

/-- The split of a filter into a left-hand side and the operator `op`'s text:
the left-hand side and the comparison `cmp`, joined by spaces, none of which
they hold. -/
theorem splitFilter_cmp {s lhs rhs : Bytes} {op : MetaCmp} :
    splitFilter s = .ok (lhs, utf8 op.display, rhs) ↔
      ∃ cmp : Option (MetaCmp × Bytes), byte ' ' ∉ lhs ∧
        (∀ o r, cmp = some (o, r) → byte ' ' ∉ r) ∧
        join (lhs :: match cmp with | none => [] | some (o, r) => [utf8 o.display, r]) ' ' = s ∧
        (match cmp with | none => (MetaCmp.ne, utf8 "0") | some (o, r) => (o, r)) = (op, rhs) := by
  have hsp : ∀ p ∈ split s ' ', byte ' ' ∉ p := fun p hp h => (mem_split hp h).2 rfl
  rw [splitFilter_eq_ok]
  constructor
  · rintro (h3 | ⟨h1, hop, rfl⟩)
    · refine ⟨some (op, rhs), hsp lhs (by simp [h3]), ?_, by rw [← join_split s ' ', h3], rfl⟩
      rintro _ _ ⟨⟩
      exact hsp rhs (by simp [h3])
    · obtain rfl : op = .ne := by cases op <;> first | rfl | exact absurd hop (by decide)
      exact ⟨none, hsp lhs (by simp [h1]), by simp, by rw [← join_split s ' ', h1], rfl⟩
  · rintro ⟨_ | ⟨op, rhs⟩, hl, hc, rfl, ⟨⟩⟩
    · exact .inr ⟨split_join (by simpa using hl) (List.cons_ne_nil _ _), rfl, rfl⟩
    · refine .inl (split_join (fun l hl' => ?_) (List.cons_ne_nil _ _))
      simp only [List.mem_cons, List.mem_singleton, List.not_mem_nil, or_false] at hl'
      rcases hl' with rfl | rfl | rfl
      · exact hl
      · cases op <;> decide
      · exact hc op l rfl

/-- `parse_filter` returns the nodes of the left-hand side it splits off, when
there are two or more, the operator and the right-hand side. -/
private theorem parseFilter_inv {s rhs : Bytes} {ns : List LhsNode} {op : MetaCmp} :
    parseFilter s = .ok (ns, op, rhs) ↔ ∃ lhs, splitFilter s = .ok (lhs, utf8 op.display, rhs) ∧
      parseLhs lhs = .ok ns ∧ 1 < ns.length := by
  simp only [parseFilter, bind_eq_ok]
  constructor
  · rintro ⟨⟨lhs, o, r⟩, hsf, ns', hns, h⟩
    split_ifs at h with hlen
    · simp at h
    simp only [bind_eq_ok, pure_eq_ok, Prod.mk.injEq] at h
    obtain ⟨-, -, c, hc, rfl, rfl, rfl⟩ := h
    exact ⟨lhs, fromStr_eq_ok.1 hc ▸ hsf, hns, by omega⟩
  · rintro ⟨lhs, hsf, hns, hlen⟩
    exact ⟨_, hsf, ns, hns, by simp [Nat.not_le.2 hlen, fromStr_eq_ok.2 rfl]⟩

/-- `parse_filter` accepts exactly the texts of well-formed filter records, and
returns the record's nodes, operator and right-hand side. -/
theorem parseFilter_eq_ok {s : Bytes} {r : List LhsNode × MetaCmp × Bytes} :
    parseFilter s = .ok r ↔ ∃ f : FilterSyntax, f.Valid ∧ f.text = s ∧ f.parsed = r := by
  obtain ⟨ns, op, rhs⟩ := r
  rw [parseFilter_inv]
  constructor
  · rintro ⟨lhs, hsf, hpl, hlen⟩
    obtain ⟨cmp, hl, hc, rfl, hp⟩ := splitFilter_cmp.1 hsf
    obtain ⟨nodes, hne, hv, rfl, rfl⟩ := (parseLhs_eq_ok hl).1 ⟨hpl, hlen⟩
    exact ⟨⟨nodes, cmp⟩, ⟨hne, hv, hc⟩, rfl, Prod.ext rfl hp⟩
  · rintro ⟨⟨nodes, cmp⟩, ⟨hne, hv, hc⟩, rfl, hp⟩
    obtain ⟨rfl, hcmp⟩ := Prod.mk.inj_iff.1 hp
    have hl := FilterSyntax.space_not_mem_lhs (f := ⟨nodes, cmp⟩) hv
    obtain ⟨hpl, hlen⟩ := (parseLhs_eq_ok hl).2 ⟨nodes, hne, hv, rfl, rfl⟩
    exact ⟨_, splitFilter_cmp.2 ⟨cmp, hl, hc, rfl, hcmp⟩, hpl, hlen⟩

/-- Read with the members it requires, `parse_filter` accepts exactly the texts
of well-formed filter records whose nodes all name a member. -/
theorem parseFilter_named_eq_ok {s : Bytes} {r : List LhsNode × MetaCmp × Bytes} :
    (parseFilter s = .ok r ∧ ∀ n ∈ r.1, n.member ≠ []) ↔
      ∃ f : FilterSyntax, f.Valid ∧ f.Named ∧ f.text = s ∧ f.parsed = r := by
  rw [parseFilter_eq_ok]
  constructor
  · rintro ⟨⟨f, hv, hs, rfl⟩, hn⟩
    exact ⟨f, hv, fun n hn' => hn n.node (List.mem_cons_of_mem _ (List.mem_map_of_mem _ hn')),
      hs, rfl⟩
  · rintro ⟨f, hv, hnamed, hs, rfl⟩
    refine ⟨⟨f, hv, hs, rfl⟩, ?_⟩
    simp only [FilterSyntax.parsed, List.mem_cons, List.mem_map]
    rintro _ (rfl | ⟨n, hn, rfl⟩)
    · decide
    · exact hnamed n hn

end FilterMeta

/-! ## The accepted filters and right-hand sides -/

/-- Against a numeric leaf load of a well-formed database, `Rval::from_str` and
`emit_target` take exactly the right-hand sides `NumRhs`. -/
theorem emitLoad_num_rhs (host : Host) {btf : Btf} (hwf : btf.WellFormed) {fuel : Nat}
    {type : Ty} (htype : type ∈ btf.types) {offt bfs : UInt32} {mask : UInt64} {l : MetaLoad}
    (hl : MetaOp.emitLoad btf fuel type offt bfs mask = .ok l)
    (hnum : (l.isPtr || l.isArr) = false) (rhs : Bytes) (op : MetaCmp) :
    (∃ top, (Rval.fromStr rhs >>= fun r => MetaOp.emitTarget host l r op) = .ok top) ↔
      NumRhs l rhs := by
  obtain ⟨k, hk⟩ := MetaOp.emitLoad_class hwf htype hl
  exact emitTarget_num_rhs hk hnum rhs op

/-- `parse_filter` accepts a filter whose nodes all name a member exactly when
it is the text of a well-formed filter record with named members, and returns
the record's parts; against a numeric leaf load of a well-formed database,
`Rval::from_str` and `emit_target` take exactly the right-hand sides `NumRhs`. -/
theorem parseFilter_language :
    (∀ s r, (FilterMeta.parseFilter s = .ok r ∧ ∀ n ∈ r.1, n.member ≠ []) ↔
      ∃ f : FilterSyntax, f.Valid ∧ f.Named ∧ f.text = s ∧ f.parsed = r) ∧
    ∀ (host : Host) (btf : Btf), btf.WellFormed → ∀ (fuel : Nat) (type : Ty), type ∈ btf.types →
      ∀ (offt bfs : UInt32) (mask : UInt64) (l : MetaLoad),
      MetaOp.emitLoad btf fuel type offt bfs mask = .ok l → (l.isPtr || l.isArr) = false →
      ∀ rhs op, (∃ top, (Rval.fromStr rhs >>= fun r => MetaOp.emitTarget host l r op) = .ok top) ↔
        NumRhs l rhs :=
  ⟨fun _ _ => FilterMeta.parseFilter_named_eq_ok,
    fun host _ hwf _ _ htype _ _ _ _ hl hnum => emitLoad_num_rhs host hwf htype hl hnum⟩

/-- The leaf load of `sk_buff.mark`, the `u32` at byte 8 of `loopBtf`, against
the right-hand side `0x10`. -/
theorem parseFilter_language_mark :
    (∃ top, (Rval.fromStr (utf8 "0x10") >>= fun r =>
        MetaOp.emitTarget host64 ⟨MetaType.int.code, 0, 8, 0, 0⟩ r .eq) = .ok top) ↔
      NumRhs ⟨MetaType.int.code, 0, 8, 0, 0⟩ (utf8 "0x10") :=
  parseFilter_language.2 host64 loopBtf (by decide) 2 (.int 4 false) (by decide) 64 0 0 _ rfl rfl
    _ _

/-- Outside the grammar of masks and right-hand sides and yet accepted: a mask
with `+`, and `+5` against `mark`. Inside it and yet rejected: a mask of 17 hex
digits, and `-1` against the unsigned `mark`. -/
theorem parseFilter_outside_grammar :
    (∃ r, FilterMeta.parseFilter (utf8 "sk_buff.mark:+1 == 1") = .ok r) ∧
    (∃ e, FilterMeta.parseFilter (utf8 "sk_buff.mark:0x10000000000000000") = .error e) ∧
    (∃ top, (Rval.fromStr (utf8 "+5") >>= fun r =>
      MetaOp.emitTarget host64 ⟨MetaType.int.code, 0, 8, 0, 0⟩ r .eq) = .ok top) ∧
    (∃ e, (Rval.fromStr (utf8 "-1") >>= fun r =>
      MetaOp.emitTarget host64 ⟨MetaType.int.code, 0, 8, 0, 0⟩ r .eq) = .error e) :=
  ⟨⟨_, rfl⟩, ⟨_, rfl⟩, ⟨_, rfl⟩, ⟨_, rfl⟩⟩

end Retis
