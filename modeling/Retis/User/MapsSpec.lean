import Retis.User.Proc
import Mathlib.Data.Nat.Digits

/-!
# Reading back the kernel's mappings

The kernel writes `/proc/<pid>/maps` in `show_map_vma`, one line per mapping:
the start and end addresses as `%08lx-%08lx`, the permissions, the offset as
`%08llx`, the device as `%02x:%02x`, the inode in decimal, then spaces and
the path, if the mapping has one. Proved here, for every mapping whose
permissions are a word and whose path holds no whitespace:

* `strU64FromRadix_printfChars`: `u64::from_str_radix` reads back every
  number `printf` writes, whatever its zero padding;
* `ProcessMap.fromString_chars`: `ProcessMap::from_string` reads a printed
  line back to the mapping it was printed from;
* `getProcessMaps_mapsText`: `get_process_maps` reads a printed file back to its
  list of mappings.
-/

namespace Retis

/-! ## Numbers as `printf` writes them -/

/-- The digits `printf` writes for `n` in base `radix`, most significant
first, behind zeros up to `width` digits. -/
def printfDigits (radix width n : Nat) : List Nat :=
  let ds := (Nat.digits radix n).reverse
  List.replicate (width - ds.length) 0 ++ ds

/-- The character of a digit, in lowercase. -/
def digitChar (d : Nat) : Char := Char.ofNat (if d < 10 then 48 + d else 87 + d)

/-- `n` as `printf` writes it in base `radix`, with at least `width` digits. -/
def printfChars (radix width n : Nat) : List Char := (printfDigits radix width n).map digitChar

theorem digitsValue_eq (radix acc : Nat) (ds : List Nat) :
    digitsValue radix acc ds = acc * radix ^ ds.length + Nat.ofDigits radix ds.reverse := by
  induction ds generalizing acc with
  | nil => simp [digitsValue]
  | cons d ds ih =>
    rw [digitsValue, ih, List.reverse_cons, Nat.ofDigits_append, Nat.ofDigits_singleton,
      List.length_reverse, List.length_cons, pow_succ]
    ring

theorem digitsValue_zeros (radix k : Nat) (ds : List Nat) :
    digitsValue radix 0 (List.replicate k 0 ++ ds) = digitsValue radix 0 ds := by
  induction k with
  | zero => rfl
  | succ k ih => simpa [List.replicate_succ, digitsValue] using ih

/-- The digits `printf` writes have the value written. -/
theorem digitsValue_printfDigits (radix width n : Nat) :
    digitsValue radix 0 (printfDigits radix width n) = n := by
  rw [printfDigits, digitsValue_zeros, digitsValue_eq, List.reverse_reverse, Nat.ofDigits_digits]
  simp

theorem lt_of_mem_printfDigits {radix width n d : Nat} (hr : 1 < radix)
    (hd : d ∈ printfDigits radix width n) : d < radix := by
  rcases List.mem_append.1 hd with h | h
  · rw [List.eq_of_mem_replicate h]; omega
  · exact Nat.digits_lt_base hr (List.mem_reverse.1 h)

theorem printfDigits_ne_nil {radix width : Nat} (hw : 0 < width) (n : Nat) :
    printfDigits radix width n ≠ [] := by
  intro h
  have := congrArg List.length h
  simp only [printfDigits, List.length_append, List.length_replicate, List.length_nil] at this
  omega

theorem toNat_digitChar {d : Nat} (hd : d < 36) :
    (digitChar d).toNat = if d < 10 then 48 + d else 87 + d := by
  rw [digitChar, Char.ofNat, dif_pos (.inl (by split <;> omega))]; rfl

/-- Every digit below 36 reads back as itself, in every radix it belongs to. -/
theorem toDigit_digitChar {radix d : Nat} (hd : d < radix) (hr : radix ≤ 36) :
    toDigit radix (digitChar d).toNat = some d := by
  rw [toNat_digitChar (by omega)]
  simp only [toDigit]
  split_ifs <;> first | omega | (congr 1; omega)

theorem isWhitespace_digitChar {d : Nat} (hd : d < 36) : isWhitespace (digitChar d) = false := by
  have h := toNat_digitChar hd
  simp only [isWhitespace, h]
  split <;> simp <;> omega

theorem digitChar_ne {d : Nat} (hd : d < 36) {c : Char} (hc : c.toNat < 48) : digitChar d ≠ c :=
  fun h => by have := toNat_digitChar hd; rw [h] at this; split at this <;> omega

/-- `u64::from_str_radix` reads back every `u64` that
`printf` writes in its radix, with any zero padding. -/
theorem strU64FromRadix_printfChars {radix width n : Nat} (hr : 1 < radix) (h36 : radix ≤ 36)
    (hw : 0 < width) (hn : n < UInt64.size) :
    strU64FromRadix (String.mk (printfChars radix width n)) radix = .ok (UInt64.ofNat n) := by
  have hds : Digits radix ((printfChars radix width n).map Char.toNat) (printfDigits radix width n) := by
    rw [Digits, printfChars, List.map_map, List.forall₂_map_left_iff, List.forall₂_same]
    exact fun d hd => toDigit_digitChar (lt_of_mem_printfDigits hr hd) h36
  have hv : fromStrRadix false 64 radix ((printfChars radix width n).map Char.toNat) = .ok n := by
    rw [fromStrRadix_unsigned_eq_ok (by omega) h36]
    refine ⟨[], _, _, rfl, .inl rfl, ?_, hds, ?_, by rw [digitsValue_printfDigits]⟩
    · simpa [printfChars] using printfDigits_ne_nil hw n
    · rw [digitsValue_printfDigits]; exact Nat.le_pred_of_lt hn
  simp only [strU64FromRadix, String.toList, hv]
  rfl

theorem printfChars_ne_nil {radix width : Nat} (hw : 0 < width) (n : Nat) :
    printfChars radix width n ≠ [] := by
  simpa [printfChars] using printfDigits_ne_nil hw n

theorem isWhitespace_printfChars {radix width n : Nat} (hr : 1 < radix) (h36 : radix ≤ 36) :
    ∀ c ∈ printfChars radix width n, isWhitespace c = false := by
  simp only [printfChars, List.mem_map]
  rintro _ ⟨d, hd, rfl⟩
  exact isWhitespace_digitChar (by have := lt_of_mem_printfDigits hr hd; omega)

theorem ne_of_mem_printfChars {radix width n : Nat} (hr : 1 < radix) (h36 : radix ≤ 36)
    {c : Char} (hc : c.toNat < 48) : ∀ x ∈ printfChars radix width n, x ≠ c := by
  simp only [printfChars, List.mem_map]
  rintro _ ⟨d, hd, rfl⟩
  exact digitChar_ne (by have := lt_of_mem_printfDigits hr hd; omega) hc

/-! ## Splitting on whitespace -/

section Split

variable {α : Type} [DecidableEq α] {p : α → Bool}

/-- A word followed by a separator is the first piece `split_whitespace` keeps. -/
theorem filter_splitOnP_word {w : List α} (hw : w ≠ []) (hp : ∀ x ∈ w, p x = false) {sep : α}
    (hs : p sep = true) (rest : List α) :
    ((w ++ sep :: rest).splitOnP p).filter (· ≠ []) = w :: (rest.splitOnP p).filter (· ≠ []) := by
  rw [List.splitOnP_first p w (fun x hx => by simp [hp x hx]) sep hs,
    List.filter_cons_of_pos (by simpa using hw)]

/-- Separators in front are dropped. -/
theorem filter_splitOnP_seps {sep : α} (hs : p sep = true) (k : Nat) (rest : List α) :
    ((List.replicate k sep ++ rest).splitOnP p).filter (· ≠ []) =
      (rest.splitOnP p).filter (· ≠ []) := by
  induction k with
  | zero => rfl
  | succ k ih =>
    rw [List.replicate_succ, List.cons_append, List.splitOnP_cons, if_pos hs,
      List.filter_cons_of_neg (by simp), ih]

/-- A last word, possibly empty, is the last piece kept, if it is not empty. -/
theorem filter_splitOnP_last {w : List α} (hp : ∀ x ∈ w, p x = false) :
    (w.splitOnP p).filter (· ≠ []) = if w = [] then [] else [w] := by
  rw [List.splitOnP_eq_single p w (fun x hx => by simp [hp x hx])]
  split <;> simp [*]

end Split

/-! ## A line of the file -/

/-- What `show_map_vma` prints for a mapping: the fields `ProcessMap` reads,
the device, which `from_string` skips, and the spaces that pad the line before
the path, beyond the one the header ends with. -/
structure VmaLine where
  map : ProcessMap
  major : Nat
  minor : Nat
  pad : Nat
  deriving DecidableEq, Repr

namespace VmaLine

/-- `%08lx-%08lx` of the start and end addresses. -/
def range (v : VmaLine) : List Char :=
  printfChars 16 8 v.map.addrStart.toNat ++ '-' :: printfChars 16 8 v.map.addrEnd.toNat

/-- `%02x:%02x` of the device. -/
def dev (v : VmaLine) : List Char := printfChars 16 2 v.major ++ ':' :: printfChars 16 2 v.minor

/-- The line, without its newline. -/
def chars (v : VmaLine) : List Char :=
  v.range ++ ' ' :: (v.map.perm.toList ++ ' ' :: (printfChars 16 8 v.map.offset.toNat ++
    ' ' :: (v.dev ++ ' ' :: (printfChars 10 1 v.map.inode.toNat ++
    ' ' :: (List.replicate v.pad ' ' ++ v.map.path.toList)))))

end VmaLine

/-- A mapping `from_string` can read back once printed: its permissions are a
word, and its path holds no whitespace. -/
def ProcessMap.Printable (m : ProcessMap) : Prop :=
  m.perm.toList ≠ [] ∧ (∀ c ∈ m.perm.toList, isWhitespace c = false) ∧
    ∀ c ∈ m.path.toList, isWhitespace c = false

namespace VmaLine

variable {v : VmaLine}

theorem isWhitespace_range : ∀ c ∈ v.range, isWhitespace c = false := by
  simp only [range, List.mem_append, List.mem_cons]
  rintro c (h | rfl | h)
  exacts [isWhitespace_printfChars (by decide) (by decide) c h, rfl,
    isWhitespace_printfChars (by decide) (by decide) c h]

theorem isWhitespace_dev : ∀ c ∈ v.dev, isWhitespace c = false := by
  simp only [dev, List.mem_append, List.mem_cons]
  rintro c (h | rfl | h)
  exacts [isWhitespace_printfChars (by decide) (by decide) c h, rfl,
    isWhitespace_printfChars (by decide) (by decide) c h]

/-- The pieces `split_whitespace` cuts a printed line into. -/
theorem splitWhitespace_chars (h : v.map.Printable) :
    splitWhitespace (String.mk v.chars) =
      [String.mk v.range, v.map.perm, String.mk (printfChars 16 8 v.map.offset.toNat),
        String.mk v.dev, String.mk (printfChars 10 1 v.map.inode.toNat)] ++
      (if v.map.path.toList = [] then [] else [v.map.path]) := by
  obtain ⟨hp0, hp, hpath⟩ := h
  have hsp : isWhitespace ' ' = true := rfl
  rw [splitWhitespace]
  dsimp only [String.toList, chars] at hp0 hp hpath ⊢
  rw [filter_splitOnP_word (by simp [range]) isWhitespace_range hsp,
    filter_splitOnP_word hp0 hp hsp,
    filter_splitOnP_word (printfChars_ne_nil (by decide) _)
      (isWhitespace_printfChars (by decide) (by decide)) hsp,
    filter_splitOnP_word (by simp [dev]) isWhitespace_dev hsp,
    filter_splitOnP_word (printfChars_ne_nil (by decide) _)
      (isWhitespace_printfChars (by decide) (by decide)) hsp,
    filter_splitOnP_seps hsp, filter_splitOnP_last hpath]
  split <;> rfl

/-- The two addresses `from_string` cuts the range into. -/
theorem splitOn_range :
    v.range.splitOn '-' =
      [printfChars 16 8 v.map.addrStart.toNat, printfChars 16 8 v.map.addrEnd.toNat] := by
  have hne : ∀ n, ∀ x ∈ printfChars 16 8 n, ¬(x == '-') = true := fun n x hx => by
    simpa using ne_of_mem_printfChars (by decide) (by decide) (c := '-') (by decide) x hx
  rw [range, List.splitOn, List.splitOnP_first _ _ (hne _) '-' (by simp),
    List.splitOnP_eq_single _ _ (hne _)]

end VmaLine

private theorem ofNat_toNat_u64 (x : UInt64) : UInt64.ofNat x.toNat = x :=
  UInt64.toNat.inj (UInt64.toNat_ofNat_of_lt x.toNat_lt_size)

/-- `ProcessMap::from_string` reads a line printed by `show_map_vma` back to
the mapping it was printed from, whatever the device and the padding. -/
theorem ProcessMap.fromString_chars {v : VmaLine} (h : v.map.Printable) :
    ProcessMap.fromString (String.mk v.chars) = .ok v.map := by
  have hnum : ∀ (radix width : Nat) (x : UInt64), 1 < radix → radix ≤ 36 → 0 < width →
      strU64FromRadix (String.mk (printfChars radix width x.toNat)) radix = .ok x :=
    fun _ _ x hr h36 hw => by
      rw [strU64FromRadix_printfChars hr h36 hw x.toNat_lt_size, ofNat_toNat_u64]
  have hex : ∀ x : UInt64, strU64FromRadix (String.mk (printfChars 16 8 x.toNat)) 16 = .ok x :=
    fun x => hnum 16 8 x (by decide) (by decide) (by decide)
  have hdec : ∀ x : UInt64, strU64FromRadix (String.mk (printfChars 10 1 x.toNat)) 10 = .ok x :=
    fun x => hnum 10 1 x (by decide) (by decide) (by decide)
  simp only [ProcessMap.fromString, VmaLine.splitWhitespace_chars h, List.cons_append,
    List.nil_append, List.length_cons, List.getD_cons_zero, List.getD_cons_succ, String.toList,
    VmaLine.splitOn_range, hex, hdec]
  by_cases hp : v.map.path.data = []
  · have hpe : v.map.path = "" := congrArg String.mk hp
    simp [hp, bail, hex]
    exact congrArg (fun p => { v.map with path := p }) hpe.symm
  · simp [hp, bail, hex]

/-! ## The whole file -/

/-- Reading the characters of one line up to its newline, when the line holds
no newline and no carriage return. -/
theorem linesFrom_line {l : List Char} (hn : '\n' ∉ l) (hr : '\r' ∉ l) (rest : List Char) :
    linesFrom [] (l ++ '\n' :: rest) = String.mk l :: linesFrom [] rest := by
  suffices h : ∀ buf, '\r' ∉ buf → linesFrom buf (l ++ '\n' :: rest) =
      String.mk (buf ++ l) :: linesFrom [] rest from h [] (List.not_mem_nil _)
  induction l with
  | nil =>
    intro buf hb
    have : buf.getLast? ≠ some '\r' := fun h => hb (List.mem_of_getLast?_eq_some h)
    simp [linesFrom, this]
  | cons c l ih =>
    intro buf hb
    have hc : c ≠ '\n' := fun h => hn (h ▸ List.mem_cons_self _ _)
    rw [List.cons_append, linesFrom, if_neg hc,
      ih (fun h => hn (List.mem_cons_of_mem _ h)) (fun h => hr (List.mem_cons_of_mem _ h)) _
        (by simp only [List.mem_append, List.mem_singleton]; rintro (h | rfl)
            exacts [hb h, hr (List.mem_cons_self _ _)])]
    simp

namespace VmaLine

/-- Every character of a printed line is a space or no whitespace at all. -/
theorem isWhitespace_chars {v : VmaLine} (h : v.map.Printable) :
    ∀ c ∈ v.chars, c = ' ' ∨ isWhitespace c = false := by
  obtain ⟨-, hp, hpath⟩ := h
  have hnum : ∀ radix width n, 1 < radix → radix ≤ 36 →
      ∀ c ∈ printfChars radix width n, c = ' ' ∨ isWhitespace c = false :=
    fun _ _ _ hr h36 c hc => .inr (isWhitespace_printfChars hr h36 c hc)
  simp only [chars, List.mem_append, List.mem_cons, List.mem_replicate]
  rintro c (h | rfl | h | rfl | h | rfl | h | rfl | h | rfl | ⟨-, rfl⟩ | h)
  exacts [.inr (isWhitespace_range c h), .inl rfl, .inr (hp c h), .inl rfl,
    hnum 16 8 _ (by decide) (by decide) c h, .inl rfl, .inr (isWhitespace_dev c h), .inl rfl,
    hnum 10 1 _ (by decide) (by decide) c h, .inl rfl, .inl rfl, .inr (hpath c h)]

end VmaLine

/-- The text of `/proc/<pid>/maps` with the given lines, each ended by a
newline. -/
def mapsText (vs : List VmaLine) : String := String.mk (vs.flatMap fun v => v.chars ++ ['\n'])

instance : DecidablePred ProcessMap.Printable := fun _ => inferInstanceAs (Decidable (_ ∧ _ ∧ _))

theorem linesFrom_mapsText {vs : List VmaLine} (h : ∀ v ∈ vs, v.map.Printable) :
    linesFrom [] (mapsText vs).toList = vs.map fun v => String.mk v.chars := by
  induction vs with
  | nil => rfl
  | cons v vs ih =>
    have hv := VmaLine.isWhitespace_chars (h v (List.mem_cons_self _ _))
    have hnot : ∀ c, isWhitespace c = true → c ≠ ' ' → c ∉ v.chars := fun c hc hs hm => by
      rcases hv c hm with h | h
      exacts [hs h, by rw [h] at hc; cases hc]
    simp only [mapsText, String.toList, List.flatMap_cons, List.append_assoc,
      List.singleton_append] at ih ⊢
    rw [linesFrom_line (hnot _ rfl (by decide)) (hnot _ rfl (by decide)),
      ih fun w hw => h w (List.mem_cons_of_mem _ hw), List.map_cons]

/-- `get_process_maps` reads the file `show_map_vma` writes back to the
mappings it was written from, in order, whatever the devices and paddings,
when no permission or path holds whitespace. -/
theorem getProcessMaps_mapsText {vs : List VmaLine} (h : ∀ v ∈ vs, v.map.Printable) :
    getProcessMaps (mapsText vs) = .ok (vs.map (·.map)) := by
  rw [getProcessMaps, linesFrom_mapsText h, mapM_eq_ok, List.forall₂_map_left_iff,
    List.forall₂_map_right_iff, List.forall₂_same]
  exact fun v hv => ProcessMap.fromString_chars (h v hv)

/-- A program mapped at `0x400000` from `/usr/bin/app`, its heap, and a
library. -/
def appLines : List VmaLine :=
  [⟨⟨0x400000, 0x401000, "r-xp", 0, 1234, "/usr/bin/app"⟩, 8, 1, 24⟩,
    ⟨⟨0x1c3d000, 0x1c5e000, "rw-p", 0, 0, "[heap]"⟩, 0, 0, 24⟩,
    ⟨⟨0x7f0000000000, 0x7f0000021000, "r--p", 0x1000, 5678, "/usr/lib/libc.so.6"⟩, 8, 1, 10⟩]

theorem getProcessMaps_appLines :
    (∀ v ∈ appLines, v.map.Printable) ∧
      getProcessMaps (mapsText appLines) = .ok (appLines.map (·.map)) :=
  ⟨by decide, getProcessMaps_mapsText (by decide)⟩

end Retis
