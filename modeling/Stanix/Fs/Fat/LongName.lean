import Stanix.Fs.Fat.Mount
import Stanix.Klib.Unicode

/-!
# Long file names

A directory of a FAT volume has entries of 32 bytes. A name that does not fit the eleven characters of
an entry is written in UTF-16 into long-name entries in front of it, thirteen units to an entry, the
last part of the name first. The first one is marked and tells how many there are.

The model has the functions of `modules/fs/fat/fat.c` that make these entries for a new file and the
one that reads them back. A directory is the sequence of its entries in the order of `fat_next_entry`,
on a device whose transfers are complete; what `fat_allocate_entries` returns is a parameter. Of the new
file's inode the model has the entry only.
-/

namespace Stanix

/-! ## Directories -/

/-- A directory and a place in it: the entries in front of it and those behind. -/
structure FatCursor where
  before : List ByteStore
  after : List ByteStore

namespace FatCursor

/-- The place of an entry. -/
def seek (slots : List ByteStore) (n : Nat) : FatCursor := ⟨slots.take n, slots.drop n⟩

/-- The entries of the directory. -/
def slots (dir : FatCursor) : List ByteStore := dir.before ++ dir.after

/-- Source: `fat_read_next_entry` (`fat.c:458`). -/
def fatReadNextEntry (dir : FatCursor) : Except Errno ByteStore × FatCursor :=
  match dir.after with
  | [] => (.error .noent, dir)
  | entry :: rest => (.ok entry, ⟨dir.before ++ [entry], rest⟩)

/-- Source: `fat_write_next_entry` (`fat.c:470`). -/
def fatWriteNextEntry (dir : FatCursor) (entry : ByteStore) : Except Errno Unit × FatCursor :=
  match dir.after with
  | [] => (.error .noent, dir)
  | _ :: rest => (.ok (), ⟨dir.before ++ [entry], rest⟩)

end FatCursor

/-- The bytes of a little-endian field. -/
def le16Bytes (x : BitVec 16) : List (BitVec 8) := [x.extractLsb' 0 8, x.extractLsb' 8 8]

/-- The string at the start of a buffer. -/
def cString (buf : List (BitVec 8)) : List (BitVec 8) := buf.takeWhile (· ≠ 0#8)

/-! ## Short names -/

/-- The functions of the C library on characters. -/
structure Ctype where
  isalpha : BitVec 8 → Bool
  isupper : BitVec 8 → Bool
  islower : BitVec 8 → Bool
  toupper : BitVec 8 → BitVec 8

/-- The fields of `fat_entry_t` (`fat.h:79`) that are set for a new file. -/
structure FatEntry where
  base : List (BitVec 8)
  ext : List (BitVec 8)
  attributes : BitVec 8
  ntReserved : BitVec 8
  creationDate : BitVec 16 := 0
  cluster : BitVec 32

/-- The entry in memory. -/
def FatEntry.bytes (entry : FatEntry) : ByteStore := fun x =>
  (entry.base ++ entry.ext ++ [entry.attributes, entry.ntReserved, 0, 0, 0] ++
    le16Bytes entry.creationDate ++ [0, 0] ++ le16Bytes (entry.cluster.extractLsb' 16 16) ++
    [0, 0, 0, 0] ++ le16Bytes (entry.cluster.extractLsb' 0 16) ++ [0, 0, 0, 0]).getD x 0

/-- Source: `fat_right_rotation` (`fat.c:577`). -/
def fatRightRotation (data : BitVec 8) : BitVec 8 :=
  (if data &&& 0x01 ≠ 0 then 0x80 else 0x00) ||| data >>> 1

/-- Source: `fat_sfn_checksum` (`fat.c:581`). -/
def fatSfnChecksum (entry : FatEntry) : BitVec 8 :=
  (entry.base ++ entry.ext).foldl (fun checksum c => fatRightRotation checksum + c) 0

/-- Source: `fat_is_char_sfn_compatible` (`fat.c:744`). -/
def fatIsCharSfnCompatible (c : BitVec 8) : Bool :=
  ¬(c = 0x20 ∨ c = 0x2b ∨ c = 0x2c ∨ c = 0x3b ∨ c = 0x3d ∨ c = 0x5b ∨ c = 0x5d ∨ c ≥ 0x80)

/-- Source: `fat_char_to_sfn_compatible` (`fat.c:751`). -/
def fatCharToSfnCompatible (ct : Ctype) (c : BitVec 8) : BitVec 8 :=
  if fatIsCharSfnCompatible c then ct.toupper c else 0x5f

/-- The case of the letters of a part of a name so far. -/
inductive NameCase
  | none
  | upper
  | lower
  deriving DecidableEq

/-- The state of the loop of `fat_is_long_name`. -/
structure NameScan where
  charsInName : Nat := 0
  charsInExtention : Nat := 0
  currentCase : NameCase := .none
  inExtention : Bool := false

/-- The loop of `fat_is_long_name`. -/
def isLongLoop (ct : Ctype) : List (BitVec 8) → NameScan → Bool
  | [], s => s.charsInName > 8 ∨ s.charsInExtention > 3
  | c :: name, s =>
    if c = 0x2e then
      if s.inExtention then true
      else isLongLoop ct name { s with inExtention := true, currentCase := .none }
    else
      let s := if s.inExtention then { s with charsInExtention := s.charsInExtention + 1 }
        else { s with charsInName := s.charsInName + 1 }
      if ¬fatIsCharSfnCompatible c then true
      else if ct.isalpha c then
        if ct.isupper c then
          if s.currentCase = .lower then true
          else isLongLoop ct name { s with currentCase := .upper }
        else if s.currentCase = .upper then true
        else isLongLoop ct name { s with currentCase := .lower }
      else isLongLoop ct name s

/-- Source: `fat_is_long_name` (`fat.c:759`). -/
def fatIsLongName (ct : Ctype) (name : List (BitVec 8)) : Bool := isLongLoop ct name {}

/-- What follows the last dot of a name. -/
def nameExtention (name : List (BitVec 8)) : List (BitVec 8) :=
  if 0x2e ∈ name then (name.reverse.takeWhile (· ≠ 0x2e)).reverse else []

/-- A part of a name, filled up with blanks. -/
def padded (n : Nat) (l : List (BitVec 8)) : List (BitVec 8) := l ++ List.replicate (n - l.length) 0x20

/-- Source: `fat_sfn_generate` (`fat.c:806`). -/
def fatSfnGenerate (ct : Ctype) (eof : BitVec 32) (name : List (BitVec 8)) (attributes : BitVec 8) :
    Exec FatEntry := do
  let ext := (nameExtention name).take 3
  let lowerExt : BitVec 8 := if ext.any ct.islower then 0x10 else 0
  if fatIsLongName ct name then
    let base := (name.take 6).takeWhile (· ≠ 0x2e)
    return {
      base := padded 8 (base.map (fatCharToSfnCompatible ct) ++ [0x7e, 0x31])
      ext := padded 3 (ext.map (fatCharToSfnCompatible ct))
      attributes := attributes
      ntReserved := lowerExt
      cluster := eof }
  else
    Exec.assert (name.length ≤ 12)
    let base := (name.take 8).takeWhile (· ≠ 0x2e)
    return {
      base := padded 8 (base.map ct.toupper)
      ext := padded 3 (ext.map (fatCharToSfnCompatible ct))
      attributes := attributes
      ntReserved := (if base.any ct.islower then 0x08 else 0) ||| lowerExt
      cluster := eof }

/-! ## Writing long names -/

/-- The unit at an index of a long name with its terminator and padding. -/
def lfnUnit (name : List (BitVec 16)) (len index : Nat) : BitVec 16 :=
  if index < len then name.getD index 0
  else if index = len then 0x0000
  else 0xffff

/-- Source: `fat_copy_lfn_chunck` (`fat.c:647`). -/
def fatCopyLfnChunck (size : Nat) (src : List (BitVec 16)) (len index : Nat) :
    List (BitVec 16) × Nat :=
  ((List.range size).map fun i => lfnUnit src len (index + i), index + size)

/-- A `fat_long_entry_t` (`fat.h:95`) in memory, with the attribute of long names. -/
def fatLongEntry (ord checksum : BitVec 8) (name1 name2 name3 : List (BitVec 16)) : ByteStore :=
  fun x =>
    ([ord] ++ name1.flatMap le16Bytes ++ [0x0f, 0, checksum] ++ name2.flatMap le16Bytes ++ [0, 0] ++
      name3.flatMap le16Bytes).getD x 0

/-- The entry that `fat_write_next_lfn` makes for the part number `ord` of a name. -/
def lfnEntry (checksum : BitVec 8) (name : List (BitVec 16)) (len count ord : Nat) : ByteStore :=
  let tag := BitVec.ofNat 8 ord ||| if ord = count then 0x40 else 0
  let chunck1 := fatCopyLfnChunck 5 name len ((ord - 1) * 13)
  let chunck2 := fatCopyLfnChunck 6 name len chunck1.2
  let chunck3 := fatCopyLfnChunck 2 name len chunck2.2
  fatLongEntry tag checksum chunck1.1 chunck2.1 chunck3.1

/-- The loop of `fat_write_next_lfn`. -/
def writeLfnLoop (checksum : BitVec 8) (name : List (BitVec 16)) (len count : Nat) :
    Nat → FatCursor → Except Errno Unit × FatCursor
  | 0, dir => (.ok (), dir)
  | ord + 1, dir =>
    match dir.fatWriteNextEntry (lfnEntry checksum name len count (ord + 1)) with
    | (.error e, dir) => (.error e, dir)
    | (.ok (), dir) => writeLfnLoop checksum name len count ord dir

/-- The number of long-name entries of a name. -/
def lfnEntriesCount (len : Nat) : Nat := (len + 13 - 1) / 13

/-- Source: `fat_write_next_lfn` (`fat.c:659`). -/
def fatWriteNextLfn (dir : FatCursor) (sfn : FatEntry) (name : List (BitVec 16)) (len : Nat) :
    Except Errno Unit × FatCursor :=
  writeLfnLoop (fatSfnChecksum sfn) name len (lfnEntriesCount len) (lfnEntriesCount len) dir

/-- The end of `fat_create_entry` (`fat.c:991`), with the place of the entries: the long name, if the
name is one, and the entry of the file. -/
def writeEntries (slots : List ByteStore) (start : Nat) (isLongName : Bool) (sfn : FatEntry)
    (date : BitVec 16) (name : List (BitVec 16)) (len : Nat) : Except Errno Unit × List ByteStore :=
  let dir := FatCursor.seek slots start
  match if isLongName then fatWriteNextLfn dir sfn name len else (.ok (), dir) with
  | (.error e, dir) => (.error e, dir.slots)
  | (.ok (), dir) =>
    let r := dir.fatWriteNextEntry { sfn with creationDate := date }.bytes
    (r.1, r.2.slots)

/-- Source: `fat_create_entry` (`fat.c:974`). The name is the array of the dentry, `allocated` is what
`fat_allocate_entries` returns for the entries and `date` is the date of the creation. -/
def fatCreateEntry (ct : Ctype) (eof : BitVec 32) (date : BitVec 16) (allocated : Except Errno Nat)
    (slots : List ByteStore) (name : List (BitVec 8)) (attributes : BitVec 8) :
    Exec (Except Errno Unit × List ByteStore) := do
  let isLongName := fatIsLongName ct (cString name)
  let utf16 := if isLongName then utf8ToUtf16 name else (.ok 0, [])
  match utf16.1, allocated with
  | .error e, _ => return (.error e, slots)
  | .ok _, .error e => return (.error e, slots)
  | .ok len, .ok start =>
    let sfn ← fatSfnGenerate ct eof (cString name) attributes
    return writeEntries slots start isLongName sfn date utf16.2 len

/-! ## Reading long names -/

/-- The attribute of long-name entries, which has four bits. -/
def IsLongEntry (entry : ByteStore) : Prop := entry 11 &&& 0x0f = 0x0f
  deriving Decidable

/-- The number of a long-name entry, without the mark of the last one. -/
def lfnOrd (entry : ByteStore) : Nat := (entry 0 &&& ~~~0x40#8).toNat

/-- The units of the name in a long-name entry. -/
def lfnUnits (entry : ByteStore) : List (BitVec 16) :=
  [1, 3, 5, 7, 9, 14, 16, 18, 20, 22, 24, 28, 30].map entry.le16

/-- The loop of `fat_parse_next_lfn`. As the entries come in reverse order, the units of one are put in
front of those that were read; they have to be in `utf16_name`. The result is the entry behind the
long name, the name, and the place of that entry. -/
def parseLfnLoop : Nat → FatCursor → ByteStore → List (BitVec 16) → Nat →
    Exec (Except Errno (ByteStore × List (BitVec 16) × Nat) × FatCursor)
  | 0, dir, entry, name, sfnOffset => .ok (.ok (entry, name, sfnOffset), dir)
  | ord + 1, dir, entry, name, _ =>
    if lfnOrd entry ≠ ord + 1 then .ok (.error .io, dir)
    else if ¬IsLongEntry entry then .ok (.error .io, dir)
    else if ord * 13 + 13 > 256 then .error .bounds
    else
      match dir.fatReadNextEntry with
      | (.error e, dir) => .ok (.error e, dir)
      | (.ok next, dir') => parseLfnLoop ord dir' next (lfnUnits entry ++ name) dir.before.length

/-- What `fat_parse_next_lfn` gives back. -/
structure LfnParsed where
  name : List (BitVec 8)
  entry : ByteStore
  sfnOffset : Nat

/-- The end of `fat_parse_next_lfn` (`fat.c:631`), with the caller's `name[512]`. -/
def parseLfnFinish (entry : ByteStore) (utf16 : List (BitVec 16)) (sfnOffset : Nat) :
    Exec (Except Errno LfnParsed) :=
  let utf8 := utf16ToUtf8 utf16
  if utf8.2.length > 512 then .error .bounds
  else
    match utf8.1 with
    | .error e => .ok (.error e)
    | .ok len =>
      if len ≥ 512 then .error .bounds
      else if IsLongEntry entry then .ok (.error .io)
      else .ok (.ok { name := utf8.2 ++ [0], entry, sfnOffset })

/-- Source: `fat_parse_next_lfn` (`fat.c:595`). -/
def fatParseNextLfn (dir : FatCursor) (entry : ByteStore) (sfnOffset : Nat) :
    Exec (Except Errno LfnParsed × FatCursor) :=
  if entry 0 &&& 0x40 = 0 then .ok (.error .io, dir)
  else if lfnOrd entry > 20 then .ok (.error .io, dir)
  else do
    match ← parseLfnLoop (lfnOrd entry) dir entry [] sfnOffset with
    | (.error e, dir) => return (.error e, dir)
    | (.ok (entry, utf16, sfnOffset), dir) =>
      let r ← parseLfnFinish entry utf16 sfnOffset
      return (r, dir)

end Stanix
