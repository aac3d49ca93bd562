import Retis.Rust.Num
import Retis.Rust.Utf8

/-!
# Processes, their mappings and their USDT notes

The pure part of `core/user/proc.rs`: decoding one USDT note from the
description of an ELF note (`UsdtNote::from_elf`), parsing a line of
`/proc/<pid>/maps` (`ProcessMap::from_string`, and the whole file in
`get_process_maps`), building a `Process` from the
parsed mappings (`Process::new`), and finding the USDT note of a runtime
address (`Process::get_note_from_symbol`). Reading files is left to the
caller: the mappings are given parsed, and what `UsdtInfo::new` reads from a
binary is a function of its path.

Lines are Rust `String`s, modelled as Lean strings; `split_whitespace` splits
on the characters Rust's `char::is_whitespace` accepts. Notes carry 64-bit
addresses: `get_note_from_offset` adds a `u64` to an `Address`, which only
type-checks with 64-bit pointers.
-/

namespace Retis

/-- `char::is_whitespace`: the Unicode `White_Space` characters. -/
def isWhitespace (c : Char) : Bool :=
  let n := c.toNat
  (9 ≤ n && n ≤ 13) || n = 32 || n = 0x85 || n = 0xA0 || n = 0x1680 ||
    (0x2000 ≤ n && n ≤ 0x200A) || n = 0x2028 || n = 0x2029 || n = 0x202F || n = 0x205F ||
    n = 0x3000

/-- `s.split_whitespace()`. -/
def splitWhitespace (s : String) : List String :=
  ((s.toList.splitOnP isWhitespace).filter (· ≠ [])).map String.mk

/-- `u64::from_str_radix(s, radix)` on a `&str`, by its characters. -/
def strU64FromRadix (s : String) (radix : Nat) : Res UInt64 :=
  match fromStrRadix false 64 radix (s.toList.map Char.toNat) with
  | .ok v => pure (UInt64.ofNat v.toNat)
  | .error e => throw e.fault

/-- `UsdtNote`: one probe of a binary's `.note.stapsdt` section. -/
structure UsdtNote where
  provider : String
  name : String
  addr : UInt64
  baseAddr : UInt64
  semaAddr : UInt64
  args : String
  deriving DecidableEq, Repr

/-! ## Decoding a note -/

/-- `Cursor::read_u64::<Endian>`: eight bytes in the host's order, or the
`UnexpectedEof` of `read_exact` when fewer are left. -/
def readU64 (endian : Endian) (cursor : Bytes) : Res (UInt64 × Bytes) :=
  if cursor.length < 8 then throw (.error "failed to fill whole buffer")
  else pure (fromNeBytes endian (cursor.take 8), cursor.drop 8)

/-- `cursor.read_until(delim, &mut buf)`: the bytes up to the first `delim`,
which they include, or all of them when there is none; and what follows. -/
def readUntil (delim : UInt8) : Bytes → Bytes × Bytes
  | [] => ([], [])
  | b :: bs =>
    if b = delim then ([b], bs)
    else
      let (buf, rest) := readUntil delim bs
      (b :: buf, rest)

/-- `CStr::from_bytes_with_nul(bytes)`, as the bytes before the nul. -/
def cstrFromBytesWithNul (bytes : Bytes) : Res Bytes :=
  match bytes.findIdx? (· == 0) with
  | some pos =>
    if pos + 1 = bytes.length then pure (bytes.take pos)
    else throw (.error s!"data provided contains an interior nul byte at byte pos {pos}")
  | none => throw (.error "data provided is not nul terminated")

/-- `.to_str()?.to_string()` of a `CStr`. -/
def cstrToString (bytes : Bytes) : Res String :=
  match fromUtf8 bytes with
  | .ok s => pure s
  | .error e => throw e.fault

/-- The three lines of `from_elf` that read one string: `read_until(b'\0')`,
then `CStr::from_bytes_with_nul(&buf)?.to_str()?.to_string()`. The string and
the rest of the cursor. -/
def readCString (cursor : Bytes) : Res (String × Bytes) := do
  let (buf, cursor) := readUntil 0 cursor
  let s ← cstrToString (← cstrFromBytesWithNul buf)
  pure (s, cursor)

/-- `UsdtNote::from_elf(bytes)`: the probe's address, the link-time address of
`.stapsdt.base` and the semaphore's address, then the provider, the probe's
name and the argument description. -/
def UsdtNote.fromElf (endian : Endian) (bytes : Bytes) : Res UsdtNote := do
  let (addr, cursor) ← readU64 endian bytes
  let (baseAddr, cursor) ← readU64 endian cursor
  let (semaAddr, cursor) ← readU64 endian cursor
  let (provider, cursor) ← readCString cursor
  let (name, cursor) ← readCString cursor
  let (args, _) ← readCString cursor
  pure { provider, name, addr, baseAddr, semaAddr, args }

/-- `UsdtInfo`: the `.stapsdt.base` address of a binary and its notes. -/
structure UsdtInfo where
  baseAddr : UInt64
  notes : List UsdtNote
  deriving DecidableEq, Repr

/-! ## Reading a binary's notes -/

/-- `STAPSDT_TYPE`: the ELF note type of a USDT probe. -/
def stapsdtType : UInt64 := 3

/-- A note of an ELF section as the `elf` crate yields it: one of the GNU notes
it knows, or any other note as its type, name and description. -/
inductive ElfNote where
  | gnuAbiTag
  | gnuBuildId
  | unknown (nType : UInt64) (name : String) (desc : Bytes)
  deriving DecidableEq, Repr

/-- The loop of `UsdtInfo::new` over the notes of `.note.stapsdt`: each must be
a note named `stapsdt` of type `STAPSDT_TYPE`, and its description a USDT note;
the first that is not ends the read with an error. -/
def usdtNotes (endian : Endian) : List ElfNote → Res (List UsdtNote)
  | [] => pure []
  | .unknown nType name desc :: notes => do
    if nType ≠ stapsdtType ∨ name ≠ "stapsdt" then
      bail s!"Unexpected note type and name: {nType}/{name}"
    let note ← UsdtNote.fromElf endian desc
    let notes ← usdtNotes endian notes
    pure (note :: notes)
  | _ :: _ => bail "Unexpected note variant found"

/-- `UsdtInfo::new(path)`, from what it reads in the binary: the `sh_addr` of
`.stapsdt.base`, if the binary has that section, and the notes of
`.note.stapsdt`, if it has that one. A binary without `.stapsdt.base` has the
default, empty, information. -/
def UsdtInfo.new (endian : Endian) (baseHdr : Option UInt64) (notesHdr : Option (List ElfNote)) :
    Res UsdtInfo :=
  match baseHdr with
  | none => pure ⟨0, []⟩
  | some baseAddr => do
    let notes ←
      match notesHdr with
      | some data => usdtNotes endian data
      | none => pure []
    pure ⟨baseAddr, notes⟩

/-! ## Finding a note by name -/

/-- `s.split_once(pat)`: the text before the first occurrence of `pat` and the
text after it. -/
def splitOnce (pat : List Char) (s : List Char) : Option (List Char × List Char) :=
  if pat.isPrefixOf s then some ([], s.drop pat.length)
  else
    match s with
    | [] => none
    | c :: cs => (splitOnce pat cs).map fun (a, b) => (c :: a, b)

/-- `UsdtInfo::get_note(target)`: the first note whose provider and name are
the two sides of the first `::` of `target`. -/
def UsdtInfo.getNote (info : UsdtInfo) (target : String) : Res (Option UsdtNote) :=
  match splitOnce "::".toList target.toList with
  | some (provider, name) =>
    pure (info.notes.find? fun note => note.provider == String.mk provider && note.name == String.mk name)
  | none =>
    bail s!"Target ({target}) is not a valid USDT target. Format should be provider::name"

/-- `UsdtInfo::is_usdt(target)`. -/
def UsdtInfo.isUsdt (info : UsdtInfo) (target : String) : Res Bool :=
  Option.isSome <$> info.getNote target

/-- `UsdtInfo::get_note_from_offset`: the first note whose link-time address,
`addr + base_addr - note.base_addr` in checked `u64` arithmetic, is `addr`. -/
def UsdtInfo.getNoteFromOffset (info : UsdtInfo) (addr : UInt64) : Res (Option UsdtNote) :=
  info.notes.findM? fun note => do
    let s ← addU64 note.addr info.baseAddr
    let linkAddr ← subU64 s note.baseAddr
    pure (linkAddr == addr)

/-- `Binary`: a path, its USDT information if it could be read, and its load
address in the process. -/
structure Binary where
  path : String
  usdtInfo : Option UsdtInfo
  addr : Option UInt64
  deriving DecidableEq, Repr

namespace Binary

/-- `Binary::new`, with `usdt path` what `UsdtInfo::new` reads from the file. -/
def new (usdt : String → Option UsdtInfo) (path : String) : Binary := ⟨path, usdt path, none⟩

/-- `Binary::new_loaded`. -/
def newLoaded (usdt : String → Option UsdtInfo) (path : String) (addr : UInt64) : Binary :=
  { new usdt path with addr := some addr }

/-- `Binary::get_note`. -/
def getNote (b : Binary) (target : String) : Res (Option UsdtNote) :=
  match b.usdtInfo with
  | some info => info.getNote target
  | none => pure none

/-- `Binary::get_note_from_offset`. -/
def getNoteFromOffset (b : Binary) (addr : UInt64) : Res (Option UsdtNote) :=
  match b.usdtInfo with
  | some info => info.getNoteFromOffset addr
  | none => pure none

/-- The body of the loop of `get_note_from_symbol` for one loaded binary. -/
def noteFromSymbol (b : Binary) (symbol : UInt64) : Res (Option UsdtNote) :=
  match b.addr with
  | some addr => do b.getNoteFromOffset (← subU64 symbol addr)
  | none => pure none

end Binary

/-- `ProcessMap`: one line of `/proc/<pid>/maps`. -/
structure ProcessMap where
  addrStart : UInt64
  addrEnd : UInt64
  perm : String
  offset : UInt64
  inode : UInt64
  path : String
  deriving DecidableEq, Repr

namespace ProcessMap

/-- `ProcessMap::from_string`. -/
def fromString (mapstr : String) : Res ProcessMap := do
  let parts := splitWhitespace mapstr
  if parts.length < 5 then bail s!"Invalid map string format {mapstr}"
  let addrParts := ((parts.getD 0 "").toList.splitOn '-').map String.mk
  if addrParts.length ≠ 2 then bail s!"Invalid map string format {mapstr}"
  let addrStart ← strU64FromRadix (addrParts.getD 0 "") 16
  let addrEnd ← strU64FromRadix (addrParts.getD 1 "") 16
  let perm := parts.getD 1 ""
  let offset ← strU64FromRadix (parts.getD 2 "") 16
  let inode ← strU64FromRadix (parts.getD 4 "") 10
  pure ⟨addrStart, addrEnd, perm, offset, inode, parts.getD 5 ""⟩

/-- `ProcessMap::is_file`: the path is neither empty nor of the form `[...]`. -/
def isFile (m : ProcessMap) : Bool :=
  !((m.path.toList.head? = some '[' && m.path.toList.getLast? = some ']') || m.path.toList = [])

/-- `maps.dedup_by(|a, b| a.path.eq(&b.path))` after the map `prev` was kept. -/
def dedupAfter (prev : ProcessMap) : List ProcessMap → List ProcessMap
  | [] => []
  | m :: ms => if m.path = prev.path then dedupAfter prev ms else m :: dedupAfter m ms

/-- `maps.dedup_by(|a, b| a.path.eq(&b.path))`. -/
def dedupByPath : List ProcessMap → List ProcessMap
  | [] => []
  | m :: ms => m :: dedupAfter m ms

end ProcessMap

/-- `BufRead::lines` over the text of a file, with `buf` the line read so far:
a line ends at a newline, which is dropped together with a `\r` before it; the
text after the last newline, if any, is one more line, as it is. -/
def linesFrom (buf : List Char) : List Char → List String
  | [] => if buf = [] then [] else [String.mk buf]
  | c :: cs =>
    if c = '\n' then
      String.mk (if buf.getLast? = some '\r' then buf.dropLast else buf) :: linesFrom [] cs
    else linesFrom (buf ++ [c]) cs

/-- `get_process_maps(pid)`, with `maps` the text of `/proc/<pid>/maps`: each
line parsed by `ProcessMap::from_string`, the first error ending the read. -/
def getProcessMaps (maps : String) : Res (List ProcessMap) :=
  (linesFrom [] maps.toList).mapM ProcessMap.fromString

/-- `PID_ALL`. -/
def pidAll : Int := -1

/-- `Process`. -/
structure Process where
  pid : Int
  exec : Binary
  libs : List Binary
  deriving DecidableEq, Repr

namespace Process

/-- `Process::new(pid, path)`, with `maps` what `get_process_maps(pid)` read. -/
def new (usdt : String → Option UsdtInfo) (pid : Int) (path : String)
    (maps : List ProcessMap) : Res Process := do
  if pid = pidAll then return ⟨pid, Binary.new usdt path, []⟩
  let binAddr ←
    match maps with
    | m :: _ => pure m.addrStart
    | [] => bail "Failed to get process maps"
  let libs := ((ProcessMap.dedupByPath maps).filter fun m => m.isFile && m.path ≠ path).map
    fun m => Binary.newLoaded usdt m.path m.addrStart
  pure ⟨pid, Binary.newLoaded usdt path binAddr, libs⟩

/-- The first binary of `bs` that gives a note. -/
def firstNote (symbol : UInt64) : List Binary → Res (Option UsdtNote)
  | [] => pure none
  | b :: bs => do
    match ← b.noteFromSymbol symbol with
    | some note => pure (some note)
    | none => firstNote symbol bs

/-- `Process::get_note_from_symbol`: the executable first, then the libraries. -/
def getNoteFromSymbol (p : Process) (symbol : UInt64) : Res (Option UsdtNote) :=
  firstNote symbol (p.exec :: p.libs)

/-- The first binary of `bs` holding the note `target` names, with its path. -/
def firstNamed (target : String) : List Binary → Res (Option (String × UsdtNote))
  | [] => pure none
  | b :: bs => do
    match ← b.getNote target with
    | some note => pure (some (b.path, note))
    | none => firstNamed target bs

/-- `Process::get_note(target)`: the executable first, then the libraries. -/
def getNote (p : Process) (target : String) : Res (Option (String × UsdtNote)) :=
  firstNamed target (p.exec :: p.libs)

/-- `Process::is_usdt(target)`. -/
def isUsdt (p : Process) (target : String) : Res Bool := Option.isSome <$> p.getNote target

end Process

/-! ## Finding a process by its command -/

/-- `ProcessError`. -/
inductive ProcessError where
  | notFound
  | tooMany
  deriving DecidableEq, Repr

/-- What a `ProcessError` displays, as the error `bail!` makes of it. -/
def ProcessError.fault : ProcessError → Fault
  | .notFound => .error "Process not found"
  | .tooMany => .error "Too many processes found"

/-- `str::trim`: the text without the whitespace at either end. -/
def strTrim (s : String) : String :=
  String.mk ((s.toList.dropWhile isWhitespace).reverse.dropWhile isWhitespace).reverse

/-- `s.parse::<i32>()`, the value as an `Int`, if it parses. -/
def parseI32 (s : String) : Option Int :=
  match fromStrRadix true 32 10 (s.toList.map Char.toNat) with
  | .ok v => some v
  | .error _ => none

/-- An entry of `/proc` as `from_cmd` reads it: whether it is a directory; its
`comm` file, if there is one, as `read_to_string` reads it (the text, or the
message of the error the read fails with); and its name, as `into_string`
reads it (the name, or, when it is not valid Unicode, its `{:?}` rendering). -/
structure ProcEntry where
  isDir : Bool
  comm : Option (Except String String)
  name : Except String String
  deriving Repr

/-- The condition of the `continue` in `from_cmd`: the entry is no directory,
has no `comm` file, or its `comm`, trimmed, is not `cmd`. Only the last test
reads the file, and a failed read ends `from_cmd` with its error. -/
def ProcEntry.skips (cmd : String) (e : ProcEntry) : Res Bool :=
  if !e.isDir then pure true
  else
    match e.comm with
    | none => pure true
    | some comm => do
      let text ← comm.mapError .error
      pure (strTrim text != cmd)

/-- The entry's name parsed as an `i32`: `none` when it is no `i32`, the
`continue` of `Err(_)`, and an error when it is not valid Unicode. -/
def ProcEntry.namePid (e : ProcEntry) : Res (Option Int) := do
  let name ← e.name.mapError fun s => .error s!"Unable to convert path into string {s}"
  pure (parseI32 name)

/-- The loop of `Process::from_cmd` over the entries of `/proc`, each one read
or the error `read_dir` gives in its place, with `pid` the process found so
far. -/
def cmdPidLoop (cmd : String) (pid : Int) : List (Except String ProcEntry) → Res Int
  | [] => pure pid
  | entry :: es => do
    let e ← entry.mapError .error
    if ← e.skips cmd then cmdPidLoop cmd pid es
    else if pid ≠ pidAll then throw ProcessError.tooMany.fault
    else
      match ← e.namePid with
      | some p => cmdPidLoop cmd p es
      | none => cmdPidLoop cmd pid es

/-- `Process::from_cmd(cmd)` up to its call of `Process::from_pid`, with
`entries` the entries of `/proc` in the order `read_dir` yields them: the pid
that call is given. -/
def fromCmdPid (cmd : String) (entries : List (Except String ProcEntry)) : Res Int := do
  let pid ← cmdPidLoop cmd pidAll entries
  if pid = pidAll then throw ProcessError.notFound.fault
  pure pid

end Retis
