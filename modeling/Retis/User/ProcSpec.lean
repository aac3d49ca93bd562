import Retis.User.NoteSpec

/-!
# Probes of a process, and the process of a command

Proved here, for every process, symbol, target, list of mappings and listing
of `/proc`:

* `UsdtInfo.getNoteFromOffset_eq_some`: `get_note_from_offset` returns the
  first note whose link-time address, computed without overflow, is the offset;
* `Process.getNoteFromSymbol_sound`: a note `get_note_from_symbol` returns is
  a note of a loaded binary of the process, and lies at the symbol there;
* `Process.getNote_sound`: a note `get_note` returns for a target is a note of
  the binary whose path comes with it, and the target is `provider::name`;
* `Process.new_loaded`: `Process::new` loads the executable at the first
  mapping, and libraries from the file-backed mappings of other paths only,
  each path among them at least once;
* `fromCmdPid_eq`: `from_cmd` keeps the directories whose `comm` is the
  command and the entries it fails to read, passes over the kept entries whose
  name is no pid until it finds one, and takes that pid only if no kept entry
  follows it, even one whose name is no pid.

And on chosen inputs:

* `getNoteFromSymbol_below_library`: `get_note_from_symbol` subtracts each
  loaded binary's address from the symbol before looking for a note, without
  comparing them first. A symbol of the executable that names no note, lying
  below a later library's load address, makes the subtraction overflow.
* `fromString_path_with_space`: `ProcessMap::from_string` splits the whole
  line on whitespace and keeps the sixth piece only, so a pathname with a
  space loses everything after it.
-/

namespace Retis

/-! ## The note at an address -/

/-- The link-time address `get_note_from_offset` computes for `note` in a
binary whose `.stapsdt.base` is at `base`, `note.addr + base - note.base_addr`,
when neither step overflows. The model follows a build with overflow checks,
where an overflowing step panics; a release build wraps instead. -/
def UsdtNote.linkAddr (note : UsdtNote) (base : UInt64) : Option Nat :=
  if note.addr.toNat + base.toNat < UInt64.size ∧ note.baseAddr.toNat ≤ note.addr.toNat + base.toNat
  then some (note.addr.toNat + base.toNat - note.baseAddr.toNat)
  else none

/-- The test of `get_note_from_offset` holds of `note` exactly at its
link-time address, and fails with an overflow where that is undefined. -/
theorem linkTest_eq_ok {base addr : UInt64} {note : UsdtNote} {b : Bool} :
    (do let s ← addU64 note.addr base
        let linkAddr ← subU64 s note.baseAddr
        pure (linkAddr == addr) : Res Bool) = .ok b ↔
      ∃ l, note.linkAddr base = some l ∧ b = decide (l = addr.toNat) := by
  simp only [bind_eq_ok, addU64_eq_ok, subU64_eq_ok, pure_eq_ok, UsdtNote.linkAddr]
  constructor
  · rintro ⟨s, ⟨hs, hsv⟩, l, ⟨hl, hlv⟩, rfl⟩
    exact ⟨l.toNat, by rw [if_pos ⟨hs, hsv ▸ hl⟩, hlv, hsv], u64_beq_eq_decide _ _⟩
  · rintro ⟨l, hl, rfl⟩
    split at hl
    · rename_i h
      cases hl
      have hs : (note.addr + base).toNat = note.addr.toNat + base.toNat := Nat.mod_eq_of_lt h.1
      have hle : note.baseAddr.toNat ≤ (note.addr + base).toNat := hs ▸ h.2
      refine ⟨_, ⟨h.1, hs⟩, _, ⟨hle, UInt64.toNat_sub_of_le _ _ hle⟩, ?_⟩
      rw [u64_beq_eq_decide, UInt64.toNat_sub_of_le _ _ hle, hs]
    · cases hl

/-- `get_note_from_offset` returns the first note whose link-time address is
`addr`, every note before it having a link-time address, another one. In a
build with overflow checks, the one modelled; a release build wraps the
address instead of panicking, and may return a note whose address wrapped. -/
theorem UsdtInfo.getNoteFromOffset_eq_some {info : UsdtInfo} {addr : UInt64} {note : UsdtNote} :
    info.getNoteFromOffset addr = .ok (some note) ↔
      ∃ pre post, info.notes = pre ++ note :: post ∧
        (∀ n ∈ pre, ∃ l, n.linkAddr info.baseAddr = some l ∧ l ≠ addr.toNat) ∧
        note.linkAddr info.baseAddr = some addr.toNat := by
  simp only [UsdtInfo.getNoteFromOffset, findM?_eq_ok_some, linkTest_eq_ok]
  simp

theorem UsdtInfo.mem_of_getNoteFromOffset {info : UsdtInfo} {addr : UInt64} {note : UsdtNote}
    (h : info.getNoteFromOffset addr = .ok (some note)) :
    note ∈ info.notes ∧ note.linkAddr info.baseAddr = some addr.toNat := by
  obtain ⟨pre, post, hnotes, -, hl⟩ := getNoteFromOffset_eq_some.mp h
  exact ⟨by simp [hnotes], hl⟩

/-- The binary `b` read `note` from its notes section. -/
def Binary.Holds (b : Binary) (note : UsdtNote) : Prop :=
  ∃ info, b.usdtInfo = some info ∧ note ∈ info.notes

/-- Where `note` of the loaded binary `b` lies in the process: the load
address plus the note's link-time address. -/
def Binary.runtimeAddr (b : Binary) (note : UsdtNote) : Option Nat :=
  match b.usdtInfo, b.addr with
  | some info, some a => (note.linkAddr info.baseAddr).map (a.toNat + ·)
  | _, _ => none

theorem Binary.noteFromSymbol_sound {b : Binary} {symbol : UInt64} {note : UsdtNote}
    (h : b.noteFromSymbol symbol = .ok (some note)) :
    b.Holds note ∧ b.runtimeAddr note = some symbol.toNat := by
  unfold noteFromSymbol getNoteFromOffset at h
  unfold Holds runtimeAddr
  rcases ha : b.addr with _ | a
  · simp [ha] at h
  rcases hi : b.usdtInfo with _ | info
  · simp [ha, hi] at h
  simp only [ha, hi, bind_eq_ok] at h
  obtain ⟨off, hoff, h⟩ := h
  obtain ⟨hmem, hl⟩ := UsdtInfo.mem_of_getNoteFromOffset h
  obtain ⟨hle, hv⟩ := subU64_eq_ok.mp hoff
  refine ⟨⟨info, rfl, hmem⟩, ?_⟩
  simp only [hl, Option.map_some', Option.some.injEq]
  omega

theorem Process.firstNote_sound {symbol : UInt64} {bs : List Binary} {note : UsdtNote}
    (h : Process.firstNote symbol bs = .ok (some note)) :
    ∃ b ∈ bs, b.noteFromSymbol symbol = .ok (some note) := by
  induction bs with
  | nil => cases h
  | cons b bs ih =>
    obtain ⟨r, hr, h⟩ := bind_eq_ok.mp h
    cases r with
    | none => exact (ih h).imp fun _ => And.imp_left (List.mem_cons_of_mem _)
    | some n => cases h; exact ⟨b, List.mem_cons_self _ _, hr⟩

/-- A note `get_note_from_symbol` returns is a note of a loaded binary of the
process, lying at the symbol. As for `get_note_from_offset`, this is a build
with overflow checks; in a release build the subtractions wrap. -/
theorem Process.getNoteFromSymbol_sound {p : Process} {symbol : UInt64} {note : UsdtNote}
    (h : p.getNoteFromSymbol symbol = .ok (some note)) :
    ∃ b ∈ p.exec :: p.libs, b.Holds note ∧ b.runtimeAddr note = some symbol.toNat := by
  obtain ⟨b, hb, h⟩ := Process.firstNote_sound h
  exact ⟨b, hb, Binary.noteFromSymbol_sound h⟩

/-- A note `app::start` at link-time address `0x10`. -/
def appNote : UsdtNote := ⟨"app", "start", 0x10, 0, 0, ""⟩

/-- A process whose executable holds `appNote` and is loaded at `0x1000`. -/
def appProcess : Process := ⟨42, ⟨"/bin/app", some ⟨0, [appNote]⟩, some 0x1000⟩, []⟩

theorem getNoteFromSymbol_appProcess :
    appProcess.getNoteFromSymbol 0x1010 = .ok (some appNote) ∧
      ∃ b ∈ appProcess.exec :: appProcess.libs,
        b.Holds appNote ∧ b.runtimeAddr appNote = some (0x1010 : UInt64).toNat :=
  ⟨rfl, Process.getNoteFromSymbol_sound rfl⟩

/-! ## The note of a target -/

theorem Process.firstNamed_sound {target path : String} {note : UsdtNote} {bs : List Binary}
    (h : Process.firstNamed target bs = .ok (some (path, note))) :
    ∃ b ∈ bs, b.path = path ∧ b.getNote target = .ok (some note) := by
  induction bs with
  | nil => cases h
  | cons b bs ih =>
    obtain ⟨r, hr, h⟩ := bind_eq_ok.mp h
    cases r with
    | none => exact (ih h).imp fun _ => And.imp_left (List.mem_cons_of_mem _)
    | some n => cases h; exact ⟨b, List.mem_cons_self _ _, rfl, hr⟩

theorem Binary.holds_of_getNote {b : Binary} {target : String} {note : UsdtNote}
    (h : b.getNote target = .ok (some note)) :
    b.Holds note ∧ target = note.provider ++ "::" ++ note.name := by
  unfold getNote at h
  rcases hi : b.usdtInfo with _ | info
  · simp [hi] at h
  simp only [hi, UsdtInfo.getNote] at h
  split at h
  · rename_i prov name hs
    have hf := pure_eq_ok.mp h
    have hp := List.find?_some hf
    simp only [Bool.and_eq_true, beq_iff_eq] at hp
    refine ⟨⟨info, hi, List.mem_of_find?_eq_some hf⟩, ?_⟩
    rw [hp.1, hp.2]
    apply String.ext
    simpa using splitOnce_some hs
  · cases h

/-- A note `get_note` returns for `target` is a note of the binary whose path
comes with it, and `target` is its provider and name joined by `::`. -/
theorem Process.getNote_sound {p : Process} {target path : String} {note : UsdtNote}
    (h : p.getNote target = .ok (some (path, note))) :
    ∃ b ∈ p.exec :: p.libs, b.path = path ∧ b.Holds note ∧
      target = note.provider ++ "::" ++ note.name := by
  obtain ⟨b, hb, hpath, h⟩ := Process.firstNamed_sound h
  exact ⟨b, hb, hpath, Binary.holds_of_getNote h⟩

theorem getNote_appProcess :
    appProcess.getNote "app::start" = .ok (some ("/bin/app", appNote)) ∧
      ∃ b ∈ appProcess.exec :: appProcess.libs, b.path = "/bin/app" ∧ b.Holds appNote ∧
        "app::start" = appNote.provider ++ "::" ++ appNote.name :=
  ⟨rfl, Process.getNote_sound rfl⟩

/-! ## The binaries of a process -/

namespace ProcessMap

theorem dedupAfter_sublist (prev : ProcessMap) (ms : List ProcessMap) :
    (dedupAfter prev ms).Sublist ms := by
  induction ms generalizing prev with
  | nil => exact .slnil
  | cons m ms ih =>
    rw [dedupAfter]
    split
    · exact (ih prev).cons m
    · exact (ih m).cons₂ m

theorem dedupByPath_sublist (ms : List ProcessMap) : (dedupByPath ms).Sublist ms := by
  cases ms with
  | nil => exact .slnil
  | cons m ms => exact (dedupAfter_sublist m ms).cons₂ m

/-- `dedup_by` keeps a mapping of every path: the first of each run. -/
theorem exists_path_dedupAfter {prev m : ProcessMap} {ms : List ProcessMap} (h : m ∈ ms) :
    ∃ m' ∈ prev :: dedupAfter prev ms, m'.path = m.path := by
  induction ms generalizing prev with
  | nil => cases h
  | cons x ms ih =>
    rw [dedupAfter]
    split
    · rcases List.mem_cons.mp h with rfl | h
      · exact ⟨prev, List.mem_cons_self _ _, by simp_all⟩
      · exact ih h
    · rcases List.mem_cons.mp h with rfl | h
      · exact ⟨m, List.mem_cons_of_mem _ (List.mem_cons_self _ _), rfl⟩
      · obtain ⟨m', hm', hp⟩ := ih h
        exact ⟨m', List.mem_cons_of_mem _ hm', hp⟩

theorem exists_path_dedupByPath {m : ProcessMap} {ms : List ProcessMap} (h : m ∈ ms) :
    ∃ m' ∈ dedupByPath ms, m'.path = m.path := by
  cases ms with
  | nil => cases h
  | cons x ms =>
    rcases List.mem_cons.mp h with rfl | h
    · exact ⟨m, List.mem_cons_self _ _, rfl⟩
    · exact exists_path_dedupAfter h

theorem isFile_of_path_eq {m m' : ProcessMap} (h : m.path = m'.path) : m.isFile = m'.isFile := by
  simp only [isFile, h]

end ProcessMap

/-- What `Process::new` makes of the mappings of a running process. -/
structure Process.LoadedFrom (usdt : String → Option UsdtInfo) (pid : Int) (path : String)
    (maps : List ProcessMap) (p : Process) : Prop where
  pid_eq : p.pid = pid
  exec_eq : ∃ m ∈ maps.head?, p.exec = Binary.newLoaded usdt path m.addrStart
  lib_of_map : ∀ b ∈ p.libs, ∃ m ∈ maps, m.isFile ∧ m.path ≠ path ∧
    b = Binary.newLoaded usdt m.path m.addrStart
  map_has_lib : ∀ m ∈ maps, m.isFile → m.path ≠ path → ∃ b ∈ p.libs, b.path = m.path

/-- For a running process, `Process::new` loads the executable at the first
mapping, every library from a file-backed mapping of another path, and a
library for each such path. -/
theorem Process.new_loaded {usdt : String → Option UsdtInfo} {pid : Int} {path : String}
    {maps : List ProcessMap} {p : Process} (hpid : pid ≠ pidAll)
    (h : Process.new usdt pid path maps = .ok p) : p.LoadedFrom usdt pid path maps := by
  cases maps with
  | nil => simp [Process.new, hpid, bail] at h
  | cons m0 ms =>
    obtain rfl : (⟨pid, _, _⟩ : Process) = p := by simpa [Process.new, hpid] using h
    refine ⟨rfl, ⟨m0, rfl, rfl⟩, fun b hb => ?_, fun m hm hf hp => ?_⟩
    · obtain ⟨m, hm, rfl⟩ := List.mem_map.mp hb
      obtain ⟨hm, hf⟩ := List.mem_filter.mp hm
      simp only [Bool.and_eq_true, decide_not, Bool.not_eq_true', decide_eq_false_iff_not] at hf
      exact ⟨m, (ProcessMap.dedupByPath_sublist _).subset hm, hf.1, hf.2, rfl⟩
    · obtain ⟨m', hm', he⟩ := ProcessMap.exists_path_dedupByPath hm
      refine ⟨_, List.mem_map_of_mem _ (List.mem_filter.mpr ⟨hm', ?_⟩), he⟩
      simp [ProcessMap.isFile_of_path_eq he, hf, he, hp]

/-- An executable mapped at `0x1000` and a library at `0x5000`. -/
def appMaps : List ProcessMap :=
  [⟨0x1000, 0x2000, "r-xp", 0, 11, "/bin/app"⟩, ⟨0x5000, 0x6000, "r-xp", 0, 12, "/lib/libc.so"⟩]

theorem getNoteFromSymbol_below_library :
    ∃ p, Process.new (fun _ => some ⟨0, []⟩) 42 "/bin/app" appMaps = .ok p ∧
      p.getNoteFromSymbol 0x2000 = .error subOverflow :=
  ⟨_, rfl, rfl⟩

theorem fromString_path_with_space :
    ∃ m, ProcessMap.fromString
        "7f0000000000-7f0000001000 r--p 00000000 08:01 1234 /tmp/my lib.so" = .ok m ∧
      m.path = "/tmp/my" :=
  ⟨_, rfl, rfl⟩

theorem new_appMaps :
    (42 : Int) ≠ pidAll ∧ ∃ p, Process.new (fun _ => none) 42 "/bin/app" appMaps = .ok p ∧
      p.LoadedFrom (fun _ => none) 42 "/bin/app" appMaps :=
  ⟨by decide, _, rfl, Process.new_loaded (by decide) rfl⟩

/-! ## The process of a command -/

/-- What an entry of `/proc` is to the search of `from_cmd` when it is not
passed over: a failure that ends the search, or an entry of the command with
the pid its name gives (`PID_ALL` when the name is no pid, which leaves the
search as it was) or the failure of reading that name. -/
inductive CmdEvent where
  | fail (f : Fault)
  | named (pid : Res Int)

/-- The event of an entry for the command `cmd`: the entry's own error, the
error of reading its `comm`, or, for a directory whose `comm` trimmed is `cmd`,
its name; `none` for an entry passed over. -/
def cmdEvent (cmd : String) : Except String ProcEntry → Option CmdEvent
  | .error msg => some (.fail (.error msg))
  | .ok e =>
    if e.isDir then
      match e.comm with
      | none => none
      | some (.error msg) => some (.fail (.error msg))
      | some (.ok text) =>
        if strTrim text = cmd then some (.named ((·.getD pidAll) <$> e.namePid)) else none
    else none

/-- An entry of the command whose name gives no pid. -/
def CmdEvent.unnamed : CmdEvent → Bool
  | .named (.ok p) => p == pidAll
  | _ => false

/-- One entry of the search, by its event: a second entry of the command is
one too many before its name is read. -/
theorem cmdPidLoop_cons (cmd : String) (pid : Int) (entry : Except String ProcEntry)
    (es : List (Except String ProcEntry)) :
    cmdPidLoop cmd pid (entry :: es) =
      match cmdEvent cmd entry with
      | none => cmdPidLoop cmd pid es
      | some (.fail f) => throw f
      | some (.named r) =>
        if pid ≠ pidAll then throw ProcessError.tooMany.fault
        else r >>= fun p => cmdPidLoop cmd p es := by
  rcases entry with msg | ⟨_ | _, _ | _ | text, name⟩ <;>
    simp [cmdPidLoop, cmdEvent, ProcEntry.skips, Except.mapError, bind, Except.bind, pure,
      Except.pure, throw, throwThe, MonadExceptOf.throw]
  by_cases ht : strTrim text = cmd
  · by_cases hp : pid = pidAll
    · subst hp
      rcases name with _ | n <;> simp [ht, ProcEntry.namePid, Except.mapError, bind,
        Except.bind, pure, Except.pure, Functor.map, Except.map]
      cases parseI32 n <;> rfl
    · simp [ht, hp]
  · simp [ht]

/-- Once a pid is found, the next event decides: a failure ends the search with
it, and any entry of the command is one too many. -/
theorem cmdPidLoop_of_found {cmd : String} {pid : Int} (hp : pid ≠ pidAll)
    (es : List (Except String ProcEntry)) :
    cmdPidLoop cmd pid es =
      match es.filterMap (cmdEvent cmd) with
      | [] => pure pid
      | .fail f :: _ => throw f
      | .named _ :: _ => throw ProcessError.tooMany.fault := by
  induction es with
  | nil => rfl
  | cons e es ih =>
    rw [cmdPidLoop_cons, List.filterMap_cons]
    rcases cmdEvent cmd e with _ | _ | _ <;> simp [ih, hp]

theorem cmdPidLoop_pidAll (cmd : String) (es : List (Except String ProcEntry)) :
    cmdPidLoop cmd pidAll es =
      match (es.filterMap (cmdEvent cmd)).dropWhile CmdEvent.unnamed with
      | [] => pure pidAll
      | .fail f :: _ | .named (.error f) :: _ => throw f
      | .named (.ok p) :: rest =>
        match rest with
        | [] => pure p
        | .fail f :: _ => throw f
        | .named _ :: _ => throw ProcessError.tooMany.fault := by
  induction es with
  | nil => rfl
  | cons e es ih =>
    rw [cmdPidLoop_cons, List.filterMap_cons]
    rcases cmdEvent cmd e with _ | f | _ | p
    · exact ih
    · rfl
    · rfl
    · by_cases hp : p = pidAll
      · subst hp
        rw [List.dropWhile_cons_of_pos (by simp [CmdEvent.unnamed])]
        exact ih
      · rw [List.dropWhile_cons_of_neg (by simpa [CmdEvent.unnamed] using hp)]
        simp only [if_neg (not_not.2 rfl), bind, Except.bind]
        rw [cmdPidLoop_of_found hp]

/-- `from_cmd` passes over the entries that are no directory of the command
and, until a pid is found, those of the command whose name is no pid. The
first entry left decides: a failure (of `read_dir`, of reading a `comm`, or of
reading the name of that entry) is the result; so is the entry's pid when no
entry follows it; after it, a failure is still the result, and an entry of the
command is one too many, whether its name is a pid or not. -/
theorem fromCmdPid_eq (cmd : String) (entries : List (Except String ProcEntry)) :
    fromCmdPid cmd entries =
      match (entries.filterMap (cmdEvent cmd)).dropWhile CmdEvent.unnamed with
      | [] => throw ProcessError.notFound.fault
      | .fail f :: _ => throw f
      | .named (.error f) :: _ => throw f
      | .named (.ok p) :: [] => pure p
      | .named (.ok _) :: .fail f :: _ => throw f
      | .named (.ok _) :: .named _ :: _ => throw ProcessError.tooMany.fault := by
  have hhead := List.head?_dropWhile_not CmdEvent.unnamed (entries.filterMap (cmdEvent cmd))
  rw [fromCmdPid, cmdPidLoop_pidAll]
  generalize (entries.filterMap (cmdEvent cmd)).dropWhile CmdEvent.unnamed = l at hhead ⊢
  rcases l with _ | ⟨_ | ⟨_ | p⟩, _ | ⟨_ | _, _⟩⟩ <;> try rfl
  simp only [List.head?_cons, CmdEvent.unnamed, beq_eq_false_iff_ne] at hhead
  simp [hhead]

end Retis
