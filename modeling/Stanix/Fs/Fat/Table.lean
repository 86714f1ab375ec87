import Stanix.Base.Bytes
import Stanix.Base.Exec

/-!
# The file allocation table

The functions of `modules/fs/fat/fat.c` that read and write one entry of the allocation table. An
entry has 12, 16 or 32 bits; the entry of cluster `c` names the cluster that follows `c` in its
chain. The first copy of the table starts after the reserved sectors and is the one that is read; a
write goes to every copy.

The device is a store of bytes together with the answers of its next transfers, so that a transfer
may fail or be short. Reads of `fat_get_next_cluster` do not look at the answer; they are modelled
on a device that reads in full. Offsets into the first copy are computed in 32 bits there; those of
a write are computed in 64 bits, which the widths of the fields keep from wrapping around.
-/

namespace Stanix

/-! ## The device -/

/-- A device file: its bytes and the answers of the transfers to come, an error code or the number
of bytes transferred at most. A transfer with no answer left is complete. -/
structure FatDevice where
  bytes : ByteStore
  answers : List (Except Errno Nat) := []

namespace FatDevice

/-- The answer of the next transfer, of `n` bytes. -/
def transfer (dev : FatDevice) (n : Nat) : Except Errno Nat × FatDevice :=
  match dev.answers with
  | [] => (.ok n, dev)
  | .error e :: rest => (.error e, { dev with answers := rest })
  | .ok k :: rest => (.ok (min k n), { dev with answers := rest })

/-- Source: `vfs_read` (`vfd.c:22`) on the device. -/
def vfsRead (dev : FatDevice) (offset n : Nat) :
    Except Errno Nat × List (BitVec 8) × FatDevice :=
  let (ret, dev) := dev.transfer n
  (ret, dev.bytes.read offset n, dev)

/-- Source: `vfs_write` (`vfd.c:35`) on the device. -/
def vfsWrite (dev : FatDevice) (offset : Nat) (buf : List (BitVec 8)) :
    Except Errno Nat × FatDevice :=
  match dev.transfer buf.length with
  | (.error e, dev) => (.error e, dev)
  | (.ok k, dev) => (.ok k, { dev with bytes := dev.bytes.write offset (buf.take k) })

theorem transfer_bytes (dev : FatDevice) (n : Nat) : (dev.transfer n).2.bytes = dev.bytes := by
  unfold transfer
  split <;> rfl

theorem vfsWrite_bytes {dev dev' : FatDevice} {offset k : Nat} {buf : List (BitVec 8)}
    (h : dev.vfsWrite offset buf = (.ok k, dev')) (hk : buf.length ≤ k) :
    dev'.bytes = dev.bytes.write offset buf := by
  have hb := dev.transfer_bytes buf.length
  unfold vfsWrite at h
  split at h
  · cases h
  next k1 dev1 ht =>
  obtain ⟨rfl, rfl⟩ := h
  rw [ht] at hb
  rw [show dev1.bytes = dev.bytes from hb, List.take_of_length_le hk]

end FatDevice

/-! ## Superblocks -/

/-- Source: the constants of `fat.h:9`. -/
inductive FatType
  | fat12
  | fat16
  | fat32
  deriving DecidableEq, Repr

/-- The fields of `fat_superblock_t` (`fat.h:107`) that the table functions read. -/
structure FatSuperblock where
  fatType : FatType
  reservedSectors : BitVec 16
  sectorSize : BitVec 16
  sectorsPerFat : BitVec 32
  dataClusters : BitVec 32
  fatCount : BitVec 8

/-- The numbers of the clusters of a volume that hold data. -/
def FatSuperblock.IsData (sb : FatSuperblock) (c : BitVec 32) : Prop :=
  2 ≤ c.toNat ∧ c.toNat < sb.dataClusters.toNat + 2
  deriving Decidable

namespace FatType

/-- The number of bits of an entry that name a cluster. -/
def width : FatType → Nat
  | .fat12 => 12
  | .fat16 => 16
  | .fat32 => 28

/-- Source: `fat_eof` (`fat.c:49`). -/
def fatEof : FatType → BitVec 32
  | .fat12 => 0xff8#32
  | .fat16 => 0xfff8#32
  | .fat32 => 0x0ffffff8#32

/-- The end-of-chain values of a table stand for one of them. -/
def endOfChain (t : FatType) (v : BitVec 32) : BitVec 32 :=
  if t.fatEof ≤ v then t.fatEof else v

/-- Where the bytes of the entry of a cluster start in a table. -/
def entryOffset : FatType → Nat → Nat
  | .fat12, c => c * 3 / 2
  | .fat16, c => c * 2
  | .fat32, c => c * 4

/-- The number of bytes that the first `n` entries of a table take. -/
def tableBytes : FatType → Nat → Nat
  | .fat12, n => (n * 3 + 1) / 2
  | .fat16, n => n * 2
  | .fat32, n => n * 4

end FatType

/-! ## Reading and writing an entry -/

/-- The value of a 12-bit entry of an odd cluster (`fat.c:71`), from the last two of the three bytes
read. -/
def oddEntry12 (e1 e2 : BitVec 8) : BitVec 16 :=
  (e1.setWidth 16 >>> 4) ||| (e2.setWidth 16 <<< 4)

/-- The value of a 12-bit entry of an even cluster (`fat.c:73`). -/
def evenEntry12 (e0 e1 : BitVec 8) : BitVec 16 :=
  e0.setWidth 16 ||| ((e1 &&& 0x0F#8).setWidth 16 <<< 8)

/-- Source: `fat_get_next_cluster` (`fat.c:63`). -/
def fatGetNextCluster (sb : FatSuperblock) (bytes : ByteStore) (cluster : BitVec 32) : BitVec 32 :=
  let start := sb.reservedSectors.toNat * sb.sectorSize.toNat
  match sb.fatType with
  | .fat12 =>
    let offset12 := (start + (cluster * 3#32 / 2#32).toNat) % 2 ^ 32
    let ent12 := fun i => bytes (offset12 + i)
    let ent :=
      if cluster % 2#32 ≠ 0#32 then oddEntry12 (ent12 1) (ent12 2) else evenEntry12 (ent12 0) (ent12 1)
    if ent ≥ 0xFF8#16 then 0xff8#32 else ent.setWidth 32
  | .fat16 =>
    let offset16 := (start + (cluster * 2#32).toNat) % 2 ^ 32
    let ent16 : BitVec 16 := bytes (offset16 + 1) ++ bytes offset16
    if ent16 ≥ 0xFFF8#16 then 0xfff8#32 else ent16.setWidth 32
  | .fat32 =>
    let offset32 := (start + (cluster * 4#32).toNat) % 2 ^ 32
    let ent32 : BitVec 32 :=
      bytes (offset32 + 3) ++ bytes (offset32 + 2) ++ bytes (offset32 + 1) ++ bytes offset32
    if ent32 ≥ 0x0FFFFFF8#32 then 0x0FFFFFF8#32 else ent32 &&& 0x0FFFFFFF#32

/-- The three bytes around a 12-bit entry with the entry replaced (`fat.c:103`). -/
def setEntry12 (cluster next : BitVec 32) (e0 e1 e2 : BitVec 8) : List (BitVec 8) :=
  if cluster % 2#32 ≠ 0#32 then
    [e0, (((next <<< 4) &&& 0xF0#32) ||| (e1.setWidth 32 &&& 0x0F#32)).setWidth 8,
      (next >>> 4).setWidth 8]
  else
    [next.setWidth 8,
      ((e1.setWidth 32 &&& 0xF0#32) ||| ((next >>> 8) &&& 0x0F#32)).setWidth 8, e2]

/-- A write of an entry to the device, which must be complete (`fat.c:110`, `fat.c:117`,
`fat.c:124`). -/
def fatWriteEntry (dev : FatDevice) (offset : Nat) (ent : List (BitVec 8)) :
    Except Errno Unit × FatDevice :=
  match dev.vfsWrite offset ent with
  | (.error e, dev) => (.error e, dev)
  | (.ok k, dev) => if k < ent.length then (.error .io, dev) else (.ok (), dev)

/-- Source: `fat_raw_set_next_cluster` (`fat.c:95`). -/
def fatRawSetNextCluster (sb : FatSuperblock) (offset : Nat) (cluster next : BitVec 32)
    (dev : FatDevice) : Except Errno Unit × FatDevice :=
  match sb.fatType with
  | .fat12 =>
    let offset12 := offset + (cluster * 3#32 / 2#32).toNat
    match dev.vfsRead offset12 3 with
    | (.error e, _, dev) => (.error e, dev)
    | (.ok k, ent12, dev) =>
      if k < 3 then (.error .io, dev)
      else
        fatWriteEntry dev offset12
          (setEntry12 cluster next (ent12.getD 0 0) (ent12.getD 1 0) (ent12.getD 2 0))
  | .fat16 =>
    let ent16 := next.setWidth 16
    fatWriteEntry dev (offset + (cluster * 2#32).toNat)
      [ent16.setWidth 8, (ent16 >>> 8).setWidth 8]
  | .fat32 =>
    let ent32 := next &&& 0x0FFFFFFF#32
    fatWriteEntry dev (offset + (cluster * 4#32).toNat)
      [ent32.setWidth 8, (ent32 >>> 8).setWidth 8, (ent32 >>> 16).setWidth 8,
        (ent32 >>> 24).setWidth 8]

/-- Where copy `i` of the table starts (`fat.c:137`). -/
def FatSuperblock.copyStart (sb : FatSuperblock) (i : Nat) : Nat :=
  (sb.reservedSectors.toNat + sb.sectorsPerFat.toNat * i) * sb.sectorSize.toNat

/-- The loop of `fat_set_next_cluster` over the copies, from copy `i` on. -/
def fatSetCopies (sb : FatSuperblock) (cluster next : BitVec 32) :
    Nat → Nat → FatDevice → Except Errno Unit × FatDevice
  | 0, _, dev => (.ok (), dev)
  | left + 1, i, dev =>
    match fatRawSetNextCluster sb (sb.copyStart i) cluster next dev with
    | (.error e, dev) => (.error e, dev)
    | (.ok (), dev) => fatSetCopies sb cluster next left (i + 1) dev

/-- Source: `fat_set_next_cluster` (`fat.c:134`). -/
def fatSetNextCluster (sb : FatSuperblock) (cluster next : BitVec 32) (dev : FatDevice) :
    Except Errno Unit × FatDevice :=
  fatSetCopies sb cluster next sb.fatCount.toNat 0 dev

end Stanix
